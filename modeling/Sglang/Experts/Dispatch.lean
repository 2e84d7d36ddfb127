import Sglang.Experts.Landing
import Sglang.Experts.Placement

/-!
# Dispatch under expert spill

`remap_dispatch_for_expert_spill` rewrites the expert ids of a batch to rows of the GPU tensors.  A
prefill batch is made resident first (`ensure_spill_experts`), a decode batch uses the landing slots
for what is not resident (`page_in_spill_experts`); the path that computes on the host is not taken
here.  An id is served if the row it is rewritten to, or its landing slot, holds the weights of its
expert.

Every id is served exactly if the batch names no more routed experts than there are slots
(`ensureSpillExperts_served_iff`), or no more missing ones than there are landing slots
(`pageInSpillExperts_served_iff`).
-/

namespace Sglang.Experts
open Lib List Lru Assign Int

variable {J R : Type}

/-- `torch.unique(topk_ids[topk_ids >= 0])` -/
def uniqueValid (topk : List ℤ) : List ℤ :=
  ((topk.filter fun id => 0 ≤ id).dedup).insertionSort (· ≤ ·)

namespace Lru

/-- `map_ids` -/
def mapIds (s : Lru J R) (topk : List ℤ) : Lru J R × List ℤ :=
  let s := s.ensureDeviceTables
  match s.mapTable with
  | some table => (s, topk.map (s.mapId table))
  | none => (s, topk)

/-- `ensure_spill_experts` -/
def ensureSpillExperts (s : Lru J R) (topk : List ℤ) : Lru J R × Except EnsureError (List ℤ) :=
  if ¬ s.applied then (s, .ok topk)
  else
    let (s, e) := if uniqueValid topk = [] then (s, none) else s.ensure (uniqueValid topk)
    match e with
    | some e => (s, .error e)
    | none =>
      let (s, physical) := s.mapIds topk
      (s, .ok physical)

end Lru

/-- `_decode_shaped_topk`, for `nTok` rows -/
def decodeShaped (slots nTok : ℕ) (topk : List ℤ) : Prop :=
  topk ≠ [] ∧ nTok ≤ max 2 (if slots = 0 then 1 else max (slots / 6) 1)

instance (slots nTok : ℕ) (topk : List ℤ) : Decidable (decodeShaped slots nTok topk) :=
  inferInstanceAs (Decidable (_ ∧ _))

inductive DispatchError
  | ensure (e : Lru.EnsureError)
  | pageIn
  deriving DecidableEq

/-- What `remap_dispatch_for_expert_spill` is called with: the landing slots that are configured,
the pool, the rows of the matrix and its entries. -/
structure Batch (J R : Type) where
  slots : ℕ
  pool : Option (Pool J R)
  nTok : ℕ
  topk : List ℤ

/-- The pool of a batch that takes the landing path. -/
def Batch.landing (b : Batch J R) : Option (Pool J R) :=
  if 0 < b.slots ∧ decodeShaped b.slots b.nTok b.topk then b.pool else none

/-- The rewritten entries, each with its entry of `land_ids` if there is one, and the pool. -/
structure Remapped (J R : Type) where
  entries : List (ℤ × Option ℤ)
  pool : Option (Pool J R)

/-- `remap_dispatch_for_expert_spill` -/
def remapDispatch (s : Lru J R) (b : Batch J R) : Lru J R × Except DispatchError (Remapped J R) :=
  if ¬ s.applied then (s, .ok ⟨b.topk.map (·, none), b.pool⟩)
  else
    match b.landing with
    | some pool =>
      match pageInSpillExperts pool s b.topk with
      | (s, some (pool, outs)) => (s, .ok ⟨outs.map fun out => (out.1, some out.2), some pool⟩)
      | (s, none) => (s, .error .pageIn)
    | none =>
      match s.ensureSpillExperts b.topk with
      | (s, .ok physical) => (s, .ok ⟨physical.map (·, none), b.pool⟩)
      | (s, .error e) => (s, .error (.ensure e))

/-! ## Service -/

/-- An entry that was not negative is served by a GPU row or by a landing slot, one that was
negative by neither. -/
def EntryServed (orig : J → ℕ → R) (s : Lru J R) (pool : Option (Pool J R)) (id : ℤ)
    (out : ℤ × Option ℤ) : Prop :=
  if id < 0 then out.1 < 0 ∧ ∀ slot ∈ out.2, slot < 0
  else
    (0 ≤ out.1 ∧ ∀ j, out.1.toNat < (s.gpus j).size ∧
      (s.gpus j).row out.1.toNat = orig j id.toNat) ∨
    out.1 = -1 ∧ ∃ p ∈ pool, ∃ slot < p.nLanding, out.2 = some (slot : ℤ) ∧
      ∀ j, (p.tensors j).row slot = orig j id.toNat

/-- The batch was dispatched and all its entries are served. -/
def Served (orig : J → ℕ → R) (topk : List ℤ) (r : Lru J R × Except DispatchError (Remapped J R)) :
    Prop :=
  ∃ out, r.2 = .ok out ∧ List.Forall₂ (EntryServed orig r.1 out.pool) topk out.entries

namespace Lru
variable {orig : J → ℕ → R} {s : Lru J R} {i : ℕ}

/-! ### Tables -/

lemma cpuMap_resident {slot : ℕ} (h : s.Books) (hi : s.idToSlot i = some slot) :
    s.cpuMap i = slot := by
  have hlt := h.slot_routed hi
  rw [cpuMap, if_neg (by omega), hi]

lemma cpuMap_shared (h : s.Books) (hi : s.nRouted ≤ i) (hlt : i < s.nExperts) :
    s.cpuMap i = (s.nKeptRouted + (i - s.nRouted) : ℕ) := by
  have hsum : s.nRouted + s.nShared = s.nExperts := Nat.sub_add_cancel h.shared_le
  rw [cpuMap, if_pos ⟨hi, by omega⟩]
  omega

lemma cpuMap_missing (hi : i < s.nRouted) (hmiss : s.idToSlot i = none) : s.cpuMap i = -1 := by
  rw [cpuMap, if_neg (by omega), hmiss]

/-- The table has `-1` for the routed experts that are not resident. -/
lemma cpuMap_neg_iff (h : s.Books) (hlt : i < s.nExperts) :
    s.cpuMap i < 0 ↔ i < s.nRouted ∧ ¬ s.Resident i := by
  rcases Nat.lt_or_ge i s.nRouted with hi | hi
  · cases hslot : s.idToSlot i with
    | some slot =>
      simp_all [cpuMap_resident, Resident]
    | none =>
      grind [cpuMap_missing, Resident]
  · rw [cpuMap_shared h hi hlt]
    exact iff_of_false (by omega) fun hand => by omega

/-- A row that the table names holds the weights of the expert. -/
lemma Rows.cpuMap (h : s.Rows orig) (hbooks : s.Books) (ha : s.applied = true)
    (hlt : i < s.nExperts) (hrow : 0 ≤ s.cpuMap i) (j : J) :
    (s.cpuMap i).toNat < (s.gpus j).size ∧ (s.gpus j).row (s.cpuMap i).toNat = orig j i := by
  have hsize := h.size j
  rw [if_pos ha] at hsize
  rcases Nat.lt_or_ge i s.nRouted with hi | hi
  · cases hslot : s.idToSlot i with
    | none =>
      simp_all [cpuMap_missing hi hslot]
    | some slot =>
      have hp := hbooks.slots.lt_of_place hslot
      rw [cpuMap_resident hbooks hslot, toNat_natCast]
      exact ⟨by omega, h.held (.inl ha) j i slot hslot⟩
  · have hsum : s.nRouted + s.nShared = s.nExperts := Nat.sub_add_cancel hbooks.shared_le
    have hshared := h.shared j (i - s.nRouted) (by omega)
    rw [sharedRow, if_pos ha, Nat.add_sub_cancel' hi] at hshared
    rw [cpuMap_shared hbooks hi hlt, toNat_natCast]
    exact ⟨by omega, hshared⟩

/-- An expert that is not resident is in the host row that the other table names. -/
lemma Rows.cpuHost (h : s.Rows orig) (hbooks : s.Books) (hi : i < s.nRouted)
    (hmiss : ¬ s.Resident i) :
    0 ≤ s.cpuHost i ∧ ∀ j, (s.hosts j).row (s.cpuHost i).toNat = orig j i := by
  have hhost : s.idToHostSlot i ≠ none := fun hnone => hmiss ((hbooks.one_place i hi).2 hnone)
  obtain ⟨hs, hhs⟩ := Option.ne_none_iff_exists'.1 hhost
  have hrow : s.cpuHost i = hs := by rw [Lru.cpuHost, hhs]
  rw [hrow, toNat_natCast]
  exact ⟨natCast_nonneg hs, fun j => h.hostHeld j i hs hhs⟩

lemma ensureDeviceTables_some (s : Lru J R) :
    ∃ t t', s.ensureDeviceTables.mapTable = some t ∧
      s.ensureDeviceTables.hostMapTable = some t' := by
  rw [ensureDeviceTables]
  split
  · exact ⟨_, _, rfl, rfl⟩
  next hboth =>
    cases ht : s.mapTable with
    | none => exact absurd (.inl (by rw [ht]; rfl)) hboth
    | some t =>
      cases ht' : s.hostMapTable with
      | none => exact absurd (.inr (by rw [ht']; rfl)) hboth
      | some t' => exact ⟨t, t', rfl, rfl⟩

lemma ensureDeviceTables_eq (s : Lru J R) :
    s.ensureDeviceTables =
      { s with mapTable := s.ensureDeviceTables.mapTable
               hostMapTable := s.ensureDeviceTables.hostMapTable } := by
  rw [ensureDeviceTables]
  split <;> rfl

lemma cpuMap_ensureDeviceTables (s : Lru J R) : s.ensureDeviceTables.cpuMap = s.cpuMap := by
  rw [ensureDeviceTables_eq]
  rfl

/-! ### Prefill -/

/-- The row an id is rewritten to. -/
def physical (s : Lru J R) (id : ℤ) : ℤ := if id < 0 then id else s.cpuMap id.toNat

variable {topk : List ℤ}

/-- `map_ids` is a lookup in the table. -/
lemma mapIds_eq (h : s.Books) (hvalid : ∀ id ∈ topk, id < s.nExperts) :
    s.mapIds topk = (s.ensureDeviceTables, topk.map s.physical) := by
  obtain ⟨t, t', ht, -⟩ := ensureDeviceTables_some s
  rw [mapIds]
  simp only [ht]
  congr 1
  refine map_congr_left fun id hid => ?_
  rw [mapId, physical]
  split
  · rfl
  next hneg =>
    have hlt := hvalid id hid
    have hconfig : s.ensureDeviceTables.nExperts = s.nExperts := by rw [ensureDeviceTables_eq]
    have hmin : min id.toNat (s.ensureDeviceTables.nExperts - 1) = id.toNat := by omega
    rw [hmin, h.ensureDeviceTables.table t ht id.toNat (by omega), cpuMap_ensureDeviceTables]

variable {id : ℤ}

/-- Without landing slots an entry is served if its expert has a row. -/
lemma entryServed_physical (h : s.Rows orig) (hbooks : s.Books) (ha : s.applied = true)
    (pool : Option (Pool J R)) (hlt : id < s.nExperts) :
    EntryServed orig s pool id (s.physical id, none) ↔
      (0 ≤ id → id.toNat < s.nRouted → s.Resident id.toNat) := by
  rw [EntryServed, physical]
  split
  next hneg => exact iff_of_true ⟨hneg, nofun⟩ fun h0 => absurd hneg (by omega)
  next hneg =>
    have hneg_iff := cpuMap_neg_iff hbooks (i := id.toNat) (by omega)
    constructor
    · grind
    · intro hres
      have hrow : 0 ≤ s.cpuMap id.toNat := by
        grind
      exact .inl ⟨hrow, h.cpuMap hbooks ha (by omega) hrow⟩

lemma mem_uniqueValid : id ∈ uniqueValid topk ↔ id ∈ topk ∧ 0 ≤ id := by
  rw [uniqueValid, mem_insertionSort, mem_dedup, mem_filter, decide_eq_true_iff]

/-- Dropping repetitions and negative entries does not change the batch. -/
lemma batchOf_uniqueValid (topk : List ℤ) :
    (s.batchOf (uniqueValid topk)).toFinset = (s.batchOf topk).toFinset := by
  ext i
  rw [mem_toFinset, mem_toFinset]
  constructor
  · intro hi
    obtain ⟨hlt, hmem⟩ := exists_of_mem_batchOf hi
    exact mem_batchOf (mem_uniqueValid.1 hmem).1 (natCast_nonneg i) hlt
  · intro hi
    obtain ⟨hlt, hmem⟩ := exists_of_mem_batchOf hi
    exact mem_batchOf (mem_uniqueValid.2 ⟨hmem, natCast_nonneg i⟩) (natCast_nonneg i) hlt

lemma ensureSpillExperts_eq (topk : List ℤ) (ha : s.applied = true) :
    s.ensureSpillExperts topk = match s.ensure (uniqueValid topk) with
      | (s, some e) => (s, .error e)
      | (s, none) => ((s.mapIds topk).1, .ok (s.mapIds topk).2) := by
  have hensure : (if uniqueValid topk = [] then (s, none) else s.ensure (uniqueValid topk)) =
      s.ensure (uniqueValid topk) := by
    split
    next hnil =>
      rw [hnil, ensure, if_neg fun hand => hand.1 ha]
      rfl
    · rfl
  rw [ensureSpillExperts, if_neg (not_not.2 ha), hensure]
  rcases s.ensure (uniqueValid topk) with ⟨s', e | e⟩ <;> rfl

/-- Every entry of the batch is served by a row exactly if its experts are resident. -/
lemma forall_served_physical (h : s.Rows orig) (hbooks : s.Books) (ha : s.applied = true)
    (pool : Option (Pool J R)) (hvalid : ∀ id ∈ topk, id < s.nExperts) :
    List.Forall₂ (EntryServed orig s pool) topk ((topk.map s.physical).map (·, none)) ↔
      ∀ i ∈ s.batchOf topk, s.Resident i := by
  rw [map_map, forall₂_map_right_iff, forall₂_same]
  constructor
  · intro hall i hi
    obtain ⟨hlt, hmem⟩ := exists_of_mem_batchOf hi
    have hserved := (entryServed_physical h hbooks ha pool (hvalid _ hmem)).1 (hall _ hmem)
    exact hserved (natCast_nonneg i) (by rwa [toNat_natCast])
  · grind [entryServed_physical, mem_batchOf]

/-- What a state must have for dispatches to it. -/
structure Ready (orig : J → ℕ → R) (s : Lru J R) : Prop where
  applied : s.applied = true
  books : s.Books
  rows : s.Rows orig

lemma Ready.ensure (h : s.Ready orig) (ids : List ℤ) : (s.ensure ids).1.Ready orig where
  applied := (ensure_config ids).2.trans h.applied
  books := h.books.ensure ids
  rows := h.rows.ensure h.books fun _ => safeLoop_of_applied ids h.applied

lemma Ready.ensureDeviceTables (h : s.Ready orig) : s.ensureDeviceTables.Ready orig where
  applied := by
    rw [ensureDeviceTables_eq]
    exact h.applied
  books := h.books.ensureDeviceTables
  rows := h.rows.ensureDeviceTables

lemma batchOf_congr {s' : Lru J R} (hconfig : s'.toConfig = s.toConfig) (ids : List ℤ) :
    s'.batchOf ids = s.batchOf ids := by
  rw [batchOf, batchOf, hconfig]

/-- After `map_ids` the entries are served exactly if the experts of the batch are resident. -/
lemma mapIds_served_iff (h : s.Ready orig) (pool : Option (Pool J R))
    (hvalid : ∀ id ∈ topk, id < s.nExperts) :
    List.Forall₂ (EntryServed orig (s.mapIds topk).1 pool) topk
      ((s.mapIds topk).2.map (·, none)) ↔ ∀ i ∈ s.batchOf topk, s.Resident i := by
  have hready := h.ensureDeviceTables
  have hconfig : s.ensureDeviceTables.toConfig = s.toConfig := by rw [ensureDeviceTables_eq]
  have hvalid' : ∀ id ∈ topk, id < s.ensureDeviceTables.nExperts := by rwa [hconfig]
  have hphysical : s.ensureDeviceTables.physical = s.physical := by
    funext id
    rw [physical, physical, cpuMap_ensureDeviceTables]
  have hresident : s.ensureDeviceTables.Resident = s.Resident := by
    rw [ensureDeviceTables_eq]
    rfl
  have hall := forall_served_physical hready.rows hready.books hready.applied pool hvalid'
  rw [hphysical, hresident, batchOf_congr hconfig] at hall
  rw [mapIds_eq h.books hvalid]
  exact hall

/-- No more experts are resident than there are slots, so a batch that is served fits. -/
lemma Books.card_le_of_resident (h : s.Books) {batch : List ℕ}
    (hres : ∀ i ∈ batch, s.Resident i) : batch.toFinset.card ≤ s.nKeptRouted := by
  refine h.slots.card_le fun i hi hnone => ?_
  have hsome := hres i (mem_toFinset.1 hi)
  rw [Resident, hnone] at hsome
  cases hsome

/-- **Prefill**: the entries are served exactly if the batch names no more routed experts than there
are slots. -/
theorem ensureSpillExperts_served_iff (h : s.Ready orig) (pool : Option (Pool J R))
    (hvalid : ∀ id ∈ topk, id < s.nExperts) :
    (∃ physical, (s.ensureSpillExperts topk).2 = .ok physical ∧
      List.Forall₂ (EntryServed orig (s.ensureSpillExperts topk).1 pool) topk
        (physical.map (·, none))) ↔ (s.batchOf topk).toFinset.card ≤ s.nKeptRouted := by
  have hready := h.ensure (uniqueValid topk)
  have hconfig := (ensure_config (s := s) (uniqueValid topk)).1
  have hbatch := batchOf_uniqueValid (s := s) topk
  have hok : (s.batchOf topk).toFinset.card ≤ s.nKeptRouted →
      (s.ensure (uniqueValid topk)).2 = none := by
    intro hcard
    refine ensure_ok h.books (.inl h.applied) (by rwa [hbatch]) fun i hi h0 => ?_
    have hlt := hvalid i (mem_uniqueValid.1 hi).1
    omega
  have hres : (s.batchOf topk).toFinset.card ≤ s.nKeptRouted →
      ∀ i ∈ s.batchOf topk, (s.ensure (uniqueValid topk)).1.Resident i := by
    intro hcard i hi
    refine ((ensure_resident h.books (by rwa [hbatch]) (hok hcard)).2 i ?_).1
    rwa [← mem_toFinset, hbatch, mem_toFinset]
  rw [ensureSpillExperts_eq topk h.applied]
  rcases hr : s.ensure (uniqueValid topk) with ⟨s', e⟩
  rw [hr] at hready hconfig hok hres
  cases e with
  | some e =>
    grind
  | none =>
    have hvalid' : ∀ id ∈ topk, id < s'.nExperts := by rwa [hconfig]
    have hserved := mapIds_served_iff hready pool hvalid'
    rw [batchOf_congr hconfig] at hserved
    constructor
    · rintro ⟨physical, hphysical, hall⟩
      cases hphysical
      have hcard := hready.books.card_le_of_resident (hserved.1 hall)
      rwa [hconfig] at hcard
    · grind

/-! ### Decode -/

/-- The missing experts of a batch. -/
def missing (s : Lru J R) (topk : List ℤ) : List ℕ := (s.batchOf topk).filter fun i => ¬ s.Resident i

variable {t : ℕ → ℤ}

/-- What the landing kernel takes for a miss is a routed expert that is not resident. -/
lemma missing_iff (h : s.Books) (ht : ∀ i < s.nExperts, t i = s.cpuMap i) :
    Assign.Missing t s.nExperts id ↔ 0 ≤ id ∧ id.toNat < s.nRouted ∧ ¬ s.Resident id.toNat := by
  have hle : s.nRouted ≤ s.nExperts := Nat.sub_le _ _
  rw [Assign.Missing]
  constructor
  · grind [cpuMap_neg_iff]
  · rintro ⟨h0, hand⟩
    refine ⟨h0, by omega, ?_⟩
    rw [ht _ (by omega)]
    exact (cpuMap_neg_iff h (by omega)).2 hand

lemma card_misses (h : s.Books) (ht : ∀ i < s.nExperts, t i = s.cpuMap i) (topk : List ℤ) :
    (misses t s.nExperts topk).card = (s.missing topk).toFinset.card := by
  have himage : misses t s.nExperts topk =
      (s.missing topk).toFinset.image fun i : ℕ => (i : ℤ) := by
    ext id
    rw [misses, mem_toFinset, mem_filter, decide_eq_true_iff, missing_iff h ht,
      Finset.mem_image]
    constructor
    · grind [mem_toFinset, missing, mem_batchOf]
    · rintro ⟨i, hi, rfl⟩
      rw [mem_toFinset, missing, mem_filter] at hi
      obtain ⟨hlt, hmem⟩ := exists_of_mem_batchOf hi.1
      exact ⟨hmem, natCast_nonneg i, hlt, of_decide_eq_true hi.2⟩
  rw [himage, Finset.card_image_of_injective _ fun _ _ => ofNat_inj.1]

/-- An entry is served unless its expert is missing and got no landing slot. -/
lemma entryServed_outcome (h : s.Ready orig) {t' : ℕ → ℤ}
    (ht : ∀ i < s.nExperts, t i = s.cpuMap i) (ht' : ∀ i < s.nExperts, t' i = s.cpuHost i)
    (pool : Pool J R) {M : Finset ℤ} {a : Assign} (hfits : a.Fits t' pool.nLanding M)
    (hlt : id < s.nExperts) {out : ℤ × ℤ} (hout : a.Outcome t s.nExperts pool.nLanding id out) :
    EntryServed orig s (some (pool.copyRows a s.hosts)) id (out.1, some out.2) ↔
      (Assign.Missing t s.nExperts id → ∃ slot < a.next, a.assignedId slot = id) := by
  rw [EntryServed]
  cases hout with
  | skip hskip =>
    have hneg : id < 0 := hskip.resolve_right (by omega)
    rw [if_pos hneg]
    refine iff_of_true ⟨hneg, ?_⟩ fun hmiss => absurd hmiss.1 (by omega)
    rintro slot ⟨⟩
    omega
  | hit h0 _ hmap =>
    rw [if_neg (by omega)]
    refine iff_of_true (.inl ⟨hmap, ?_⟩) fun hmiss => absurd hmiss.2.2 (by omega)
    rw [ht _ (by omega)] at hmap ⊢
    exact h.rows.cpuMap h.books h.applied (by omega) hmap
  | @landed hmiss slot hslot hid =>
    obtain ⟨h0, hrouted, hres⟩ := (missing_iff h.books ht).1 hmiss
    rw [if_neg (by omega)]
    refine iff_of_true (.inr ⟨rfl, _, rfl, slot, hslot.trans_le hfits.next_le, rfl, ?_⟩)
      fun _ => ⟨slot, hslot, hid⟩
    intro j
    obtain ⟨hnonneg, hrow⟩ := h.rows.cpuHost h.books hrouted hres
    have hhost : a.slotHostRow slot = s.cpuHost id.toNat := by
      rw [hfits.row slot hslot, hid, ht' _ (by omega)]
    refine (if_pos ⟨hslot.trans_le hfits.next_le, by rwa [hhost]⟩).trans ?_
    rw [hhost]
    exact hrow j
  | dropped hmiss hfull hnot =>
    have h0 := hmiss.1
    rw [if_neg (by omega)]
    refine iff_of_false ?_ fun hslot => ?_
    · simp
    · grind

lemma forall₂_iff {α β : Type} {P Q : α → β → Prop} {S : α → Prop} {l : List α} {l' : List β}
    (h : List.Forall₂ P l l') (hiff : ∀ a ∈ l, ∀ b, P a b → (Q a b ↔ S a)) :
    List.Forall₂ Q l l' ↔ ∀ a ∈ l, S a := by
  induction h with
  | nil => exact iff_of_true .nil fun _ ha => absurd ha not_mem_nil
  | @cons a b l l' hab _ ih =>
    rw [forall₂_cons, forall_mem_cons, hiff a mem_cons_self b hab,
      ih fun a ha => hiff a (mem_cons_of_mem _ ha)]

lemma exists_of_forall₂ {α β : Type} {P : α → β → Prop} {l : List α} {l' : List β} {a : α}
    (h : List.Forall₂ P l l') (ha : a ∈ l) : ∃ b, P a b := by
  induction h with
  | nil => exact absurd ha not_mem_nil
  | cons hab _ ih =>
    grind

/-- After the kernels the entries are served exactly if there are slots for the missing experts. -/
lemma assign_served_iff (h : s.Ready orig) {t' : ℕ → ℤ}
    (ht : ∀ i < s.nExperts, t i = s.cpuMap i) (ht' : ∀ i < s.nExperts, t' i = s.cpuHost i)
    (pool : Pool J R) (topk : List ℤ) (hvalid : ∀ id ∈ topk, id < s.nExperts) :
    List.Forall₂
      (EntryServed orig s (some (pool.copyRows
        (assignLoop t t' s.nExperts pool.nLanding .start topk).1 s.hosts))) topk
      ((assignLoop t t' s.nExperts pool.nLanding .start topk).2.map
        fun out => (out.1, some out.2)) ↔ (s.missing topk).toFinset.card ≤ pool.nLanding := by
  have hM : ∀ id ∈ topk, Assign.Missing t s.nExperts id → id ∈ misses t s.nExperts topk :=
    fun id hid hmiss => mem_toFinset.2 (mem_filter.2 ⟨hid, decide_eq_true hmiss⟩)
  have hhosts : ∀ id ∈ topk, Assign.Missing t s.nExperts id → 0 ≤ t' id.toNat := by
    intro id hid hmiss
    obtain ⟨h0, hrouted, hres⟩ := (missing_iff h.books ht).1 hmiss
    have hlt := hvalid id hid
    rw [ht' _ (by omega)]
    exact (h.rows.cpuHost h.books hrouted hres).1
  obtain ⟨hfits, -, houts⟩ := assignLoop_spec topk
    (.start : Assign.Fits t' pool.nLanding _ _) hhosts hM
  rw [forall₂_map_right_iff, forall₂_iff houts fun id hid out hout =>
    entryServed_outcome h ht ht' pool hfits (hvalid id hid) hout, ← card_misses h.books ht]
  constructor
  · intro hall
    refine hfits.card_le fun id hid => ?_
    obtain ⟨hmem, hmiss⟩ := mem_filter.1 (mem_toFinset.1 hid)
    exact hall id hmem (of_decide_eq_true hmiss)
  · intro hcard id hid hmiss
    obtain ⟨out, hout⟩ := exists_of_forall₂ houts hid
    rcases hout.landed_or_full hmiss with hslot | hfull
    · exact hslot
    · exact hfits.not_dropped hcard (hM id hid hmiss) hfull

/-- **Decode**: the entries are served exactly if the batch names no more missing experts than there
are landing slots. -/
theorem pageInSpillExperts_served_iff (h : s.Ready orig) (pool : Pool J R)
    (hvalid : ∀ id ∈ topk, id < s.nExperts) :
    (∃ p outs, (pageInSpillExperts pool s topk).2 = some (p, outs) ∧
      List.Forall₂ (EntryServed orig (pageInSpillExperts pool s topk).1 (some p)) topk
        (outs.map fun out => (out.1, some out.2))) ↔
      pool.nLanding ≤ kMaxLanding ∧ topk ≠ [] ∧ (s.missing topk).toFinset.card ≤ pool.nLanding := by
  obtain ⟨t, t', ht, ht'⟩ := ensureDeviceTables_some s
  have hready := h.ensureDeviceTables
  have hconfig : s.ensureDeviceTables.toConfig = s.toConfig := by rw [ensureDeviceTables_eq]
  have hmissing : s.ensureDeviceTables.missing topk = s.missing topk := by
    rw [ensureDeviceTables_eq]
    rfl
  have hserved := assign_served_iff hready (hready.books.table t ht) (hready.books.hostTable t' ht')
    pool topk (by rwa [hconfig])
  rw [pageInSpillExperts]
  split
  next hcheck =>
    grind
  next hcheck =>
    grind

end Lru

/-! ## Runs -/

variable {orig : J → ℕ → R} {s s' : Lru J R}

/-- A dispatch; one that raises leaves the state as it was when it raised. -/
def dispatchStep (s : Lru J R) (b : Batch J R) : Option (Lru J R) := some (remapDispatch s b).1

lemma Lru.Ready.mapIds (h : s.Ready orig) (topk : List ℤ) : (s.mapIds topk).1.Ready orig := by
  grind [mapIds, h.ensureDeviceTables]

lemma Lru.Ready.ensureSpillExperts (h : s.Ready orig) (topk : List ℤ) :
    (s.ensureSpillExperts topk).1.Ready orig := by
  have hready := h.ensure (uniqueValid topk)
  rw [ensureSpillExperts_eq topk h.applied]
  rcases hr : s.ensure (uniqueValid topk) with ⟨s', e⟩
  rw [hr] at hready
  cases e with
  | some e => exact hready
  | none => exact hready.mapIds topk

/-- Either path leaves the spill ready for the next batch, also when it has failed. -/
lemma Lru.Ready.dispatch (h : s.Ready orig) (b : Batch J R) :
    (remapDispatch s b).1.Ready orig := by
  rw [remapDispatch, if_neg (not_not.2 h.applied)]
  cases b.landing with
  | some pool =>
    grind [h.ensureDeviceTables, pageInSpillExperts]
  | none =>
    grind [h.ensureSpillExperts]

/-- The batch names no more experts than its path has places for. -/
def Batch.Fits (b : Batch J R) (s : Lru J R) : Prop :=
  match b.landing with
  | some pool => pool.nLanding ≤ kMaxLanding ∧ (s.missing b.topk).toFinset.card ≤ pool.nLanding
  | none => (s.batchOf b.topk).toFinset.card ≤ s.nKeptRouted

lemma Batch.topk_ne_nil {b : Batch J R} {pool : Pool J R} (h : b.landing = some pool) :
    b.topk ≠ [] := by
  rw [Batch.landing] at h
  split at h
  next hand => exact hand.2.1
  · cases h

/-- Both paths serve a batch exactly if it fits. -/
lemma Lru.Ready.served_iff (h : s.Ready orig) (b : Batch J R)
    (hvalid : ∀ id ∈ b.topk, id < s.nExperts) :
    Served orig b.topk (remapDispatch s b) ↔ b.Fits s := by
  rw [Served, Batch.Fits, remapDispatch, if_neg (not_not.2 h.applied)]
  cases hlanding : b.landing with
  | some pool =>
    have hne := Batch.topk_ne_nil hlanding
    have hiff := pageInSpillExperts_served_iff h pool hvalid
    rcases hr : pageInSpillExperts pool s b.topk with ⟨s', none | ⟨p, outs⟩⟩ <;> rw [hr] at hiff
    · grind
    · grind
  | none =>
    have hiff := ensureSpillExperts_served_iff h b.pool hvalid
    rcases hr : s.ensureSpillExperts b.topk with ⟨s', e | physical⟩ <;> rw [hr] at hiff
    · grind
    · grind

section
variable [Fintype J] {a : Args J R} {primary : J} {junk : ℕ → R} {s₀ : Lru J R}

/-- A spill that was built and shrunk is ready. -/
lemma ready_of_init (h0 : init a primary junk = .ok s₀)
    (hload : a.Loaded (a.config primary) orig) : s₀.applyShrink.Ready orig := by
  obtain ⟨hchecked, rfl⟩ := init_ok h0
  have hbooks : (built a (a.config primary) junk).Books := hchecked.books hload
  refine ⟨?_, hbooks.applyShrink, (hchecked.rows hload).applyShrink hbooks⟩
  rw [applyShrink]
  split
  next ha => exact ha
  · rfl

/-- **No routed expert is skipped** by a dispatch in any state that dispatches reach, exactly if the
batch fits. -/
theorem served_iff_fits (h₀ : init a primary junk = .ok s₀)
    (hload : a.Loaded (a.config primary) orig)
    (hrun : Run dispatchStep (fun _ _ => True) s₀.applyShrink s) (b : Batch J R)
    (hvalid : ∀ id ∈ b.topk, id < s.nExperts) :
    Served orig b.topk (remapDispatch s b) ↔ b.Fits s := by
  have hready : s.Ready orig := by
    refine hrun.invariant (ready_of_init h₀ hload) ?_
    rintro s b s' h - ⟨⟩
    exact h.dispatch b
  exact hready.served_iff b hvalid

end

/-- The spill of `Lru.tailArgs`, shrunk: experts 0 and 1 have the two slots. -/
def tailShrunk : Lru Unit ℕ :=
  (built tailArgs (tailArgs.config ()) fun _ => 0).applyShrink

/-- A batch of three experts. -/
def prefillBatch : Batch Unit ℕ := { slots := 0, pool := none, nTok := 3, topk := [0, 1, 2] }

/-- A batch of two missing experts, for one landing slot. -/
def decodeBatch : Batch Unit ℕ where
  slots := 1
  pool := some { nLanding := 1, pos := Nat.one_pos, tensors := fun _ => ⟨1, fun _ => 0⟩ }
  nTok := 1
  topk := [2, 3]

/-- Expert 0 is evicted for expert 2 before the batch is computed; expert 3 finds the landing slot
taken.  Both are skipped. -/
theorem expert_skipped :
    (∃ s₀, init tailArgs () (fun _ => 0) = .ok s₀ ∧ s₀.applyShrink = tailShrunk) ∧
      tailArgs.Loaded (tailArgs.config ()) (fun _ i => i) ∧
      (remapDispatch tailShrunk prefillBatch).2.toOption.map (·.entries) =
        some [(-1, none), (1, none), (0, none)] ∧
      ¬ Served (fun _ i => i) prefillBatch.topk (remapDispatch tailShrunk prefillBatch) ∧
      (remapDispatch tailShrunk decodeBatch).2.toOption.map (·.entries) =
        some [(-1, some 0), (-1, some (-1))] ∧
      ¬ Served (fun _ i => i) decodeBatch.topk (remapDispatch tailShrunk decodeBatch) := by
  have hready : tailShrunk.Ready fun _ i => i := ready_of_init tailArgs_init tailArgs_loaded
  refine ⟨⟨_, tailArgs_init, rfl⟩, tailArgs_loaded, by decide, ?_, by decide, ?_⟩
  · rw [hready.served_iff prefillBatch (by decide)]
    change ¬ (tailShrunk.batchOf [0, 1, 2]).toFinset.card ≤ tailShrunk.nKeptRouted
    decide
  · rw [hready.served_iff decodeBatch (by decide)]
    change ¬ (1 ≤ kMaxLanding ∧ (tailShrunk.missing [2, 3]).toFinset.card ≤ 1)
    decide

/-- Batches that fit, after the one that did not, on either path: expert 0 is brought in again, and
expert 3 lands. -/
theorem served_after_prefill :
    Served (fun _ i => i) [0, -1, 0]
      (remapDispatch (remapDispatch tailShrunk prefillBatch).1
        { prefillBatch with topk := [0, -1, 0] }) ∧
    Served (fun _ i => i) [3, -1, 1, 3]
      (remapDispatch (remapDispatch tailShrunk prefillBatch).1
        { decodeBatch with topk := [3, -1, 1, 3] }) := by
  have hrun : Run dispatchStep (fun _ _ => True) tailShrunk
      (remapDispatch tailShrunk prefillBatch).1 := Run.start.next trivial (s := tailShrunk) rfl
  constructor
  · refine (served_iff_fits tailArgs_init tailArgs_loaded hrun _ ?_).2 ?_
    · decide
    · change ((remapDispatch tailShrunk prefillBatch).1.batchOf [0, -1, 0]).toFinset.card ≤
        (remapDispatch tailShrunk prefillBatch).1.nKeptRouted
      decide
  · refine (served_iff_fits tailArgs_init tailArgs_loaded hrun _ ?_).2 ?_
    · decide
    · change 1 ≤ kMaxLanding ∧
        ((remapDispatch tailShrunk prefillBatch).1.missing [3, -1, 1, 3]).toFinset.card ≤ 1
      decide

end Sglang.Experts
