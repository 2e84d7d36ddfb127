import Sglang.Experts.SpillRuns

/-!
# Where the loader puts the experts

`spill_placement` decides which experts start on the host.  The weight loader asks
`spilled_expert_host_row` and `remap_shared_expert_gpu_index` for the row of an expert, and the LRU
is built from the placement.  The parameters are those with a host mirror.

* `placement_perm` and `cold_spec`: every routed expert is kept or cold, as many of each as the plan
  says, whatever the table of popular experts holds (repetitions and ids out of range included).
* `loaderRow_spec`: the loader has a row for each expert, and no row for two.
* `placement_agrees`: the LRU accepts the placement, and its maps and device tables name the rows
  that the loader has filled.
-/

namespace Sglang.Experts
open Lib List

/-- The numbers of `RoutedExpertSpillPlan`; those of bytes are left out. -/
structure SpillPlan where
  localRouted : ℕ
  nShared : ℕ
  nKeptRouted : ℕ
  nSpilled : ℕ
  kept_add_spilled : nKeptRouted + nSpilled = localRouted

/-- `plan_routed_expert_spill`, for a budget that is rounded to bytes already; `none` is the
`ValueError`.  A layer gives as many experts as its share of the budget holds. -/
def planRoutedExpertSpill (spillBytes : ℕ) (localRouted bytesPerExpert : ℤ) (nShared nLayers : ℕ) :
    Option SpillPlan :=
  if localRouted < 0 ∨ bytesPerExpert < 0 then none
  else
    let layerBudget := spillBytes / max nLayers 1
    let nSpilled := if bytesPerExpert = 0 then 0
      else min localRouted.toNat (layerBudget / bytesPerExpert.toNat)
    some
      { localRouted := localRouted.toNat
        nShared := nShared
        nKeptRouted := localRouted.toNat - nSpilled
        nSpilled := nSpilled
        kept_add_spilled := by
          refine Nat.sub_add_cancel ?_
          dsimp only [nSpilled]
          split
          · exact Nat.zero_le _
          · exact min_le_left _ _ }

/-- The loop over an entry of the table, up to `limit` ids. -/
def usable (n limit : ℕ) : List ℕ → List ℤ → List ℕ
  | ids, [] => ids
  | ids, x :: xs =>
    let ids := if 0 ≤ x ∧ x < n ∧ x.toNat ∉ ids then ids ++ [x.toNat] else ids
    if ids.length = limit then ids else usable n limit ids xs

/-- The row of a tensor that an expert is loaded into. -/
inductive Row
  | gpu (slot : ℕ)
  | host (row : ℕ)

/-- What the table of the GPU rows has for it. -/
def Row.gpuEntry : Row → ℤ
  | .gpu slot => slot
  | .host _ => -1

/-- What the table of the host rows has for it. -/
def Row.hostEntry : Row → ℤ
  | .gpu _ => -1
  | .host row => row

/-- The tensors that are left have such a row. -/
def Row.Valid (p : SpillPlan) : Row → Prop
  | .gpu slot => slot < p.nKeptRouted + p.nShared
  | .host row => row < p.nSpilled

namespace SpillPlan
variable (p : SpillPlan) (entry : Option (List ℤ))

/-- The ids that start on the host; `entry` is what the table has for the layer and the rank. -/
def cold : List ℕ :=
  let tail := range' p.nKeptRouted (p.localRouted - p.nKeptRouted)
  match entry with
  | none => tail
  | some xs =>
    let ids := usable p.localRouted p.nSpilled [] xs
    if 0 < p.nSpilled ∧ ids.length = p.nSpilled then ids.insertionSort (· ≤ ·) else tail

def kept : List ℕ := (range p.localRouted).filter (· ∉ p.cold entry)

/-- `spill_placement` -/
def spillPlacement : List ℕ × List ℕ := (p.kept entry, p.cold entry)

/-- `spilled_expert_host_row` -/
def spilledExpertHostRow (e : ℕ) : Option ℕ :=
  if p.nSpilled = 0 ∨ p.localRouted ≤ e then none else enumerated (p.cold entry) e

/-- `remap_shared_expert_gpu_index`; `none` is the `KeyError`. -/
def remapSharedExpertGpuIndex (e : ℕ) : Option ℕ :=
  if p.nSpilled = 0 then some e
  else if p.localRouted ≤ e then some (p.nKeptRouted + (e - p.localRouted))
  else enumerated (p.kept entry) e

/-- The row that the loader writes. -/
def loaderRow (e : ℕ) : Option Row :=
  match p.spilledExpertHostRow entry e with
  | some row => some (.host row)
  | none => (p.remapSharedExpertGpuIndex entry e).map .gpu

/-- The call of `RoutedExpertLru` with the tensors that the loader has filled. -/
def args {J R : Type} (rows : J → ℕ → R) (hosts : J → Tensor R) : Args J R where
  weights j := ⟨p.nKeptRouted + p.nShared, rows j⟩
  nShared := p.nShared
  nSpilled := p.nSpilled
  hosts := some hosts
  logicalNExperts := some (p.localRouted + p.nShared)
  alreadyShrunk := true
  keptIds := some (p.spillPlacement entry).1
  coldIds := some (p.spillPlacement entry).2

/-! ## The placement -/

/-- The usable ids of a table entry are distinct and in range, whatever the entry holds. -/
lemma usable_spec {n limit : ℕ} {ids : List ℕ} (xs : List ℤ) (h : ids.Nodup ∧ ∀ i ∈ ids, i < n) :
    (usable n limit ids xs).Nodup ∧ ∀ i ∈ usable n limit ids xs, i < n := by
  induction xs generalizing ids with
  | nil => exact h
  | cons x xs ih =>
    have hpush : 0 ≤ x ∧ x < n ∧ x.toNat ∉ ids →
        (ids ++ [x.toNat]).Nodup ∧ ∀ i ∈ ids ++ [x.toNat], i < n := by
      grind
    rw [usable]
    split_ifs with hx
    · exact hpush hx
    · exact ih (hpush hx)
    · exact h
    · exact ih h

/-- As many cold experts as the plan says, in order and in range. -/
lemma cold_spec : (p.cold entry).length = p.nSpilled ∧ (p.cold entry).Nodup ∧
    (p.cold entry).Pairwise (· ≤ ·) ∧ ∀ i ∈ p.cold entry, i < p.localRouted := by
  have hsum := p.kept_add_spilled
  have htail : ∀ l, l = range' p.nKeptRouted (p.localRouted - p.nKeptRouted) →
      l.length = p.nSpilled ∧ l.Nodup ∧ l.Pairwise (· ≤ ·) ∧ ∀ i ∈ l, i < p.localRouted := by
    rintro l rfl
    refine ⟨?_, nodup_range', pairwise_le_range' _, fun i hi => ?_⟩
    · rw [length_range']
      omega
    · rw [mem_range'_1] at hi
      omega
  cases entry with
  | none => exact htail _ rfl
  | some xs =>
    rw [cold]
    split_ifs with hfull
    · obtain ⟨hnodup, hlt⟩ := @usable_spec p.localRouted p.nSpilled [] xs (by simp)
      have hperm := perm_insertionSort (· ≤ ·) (usable p.localRouted p.nSpilled [] xs)
      refine ⟨hperm.length_eq.trans hfull.2, hperm.nodup_iff.2 hnodup, ?_, ?_⟩
      · exact pairwise_insertionSort _ _
      · exact fun i hi => hlt i (hperm.mem_iff.1 hi)
    · exact htail _ rfl

/-- Every routed expert is kept or cold, and only one of the two. -/
lemma placement_perm : (p.kept entry ++ p.cold entry).Perm (range p.localRouted) := by
  obtain ⟨_, hnodup, _, hlt⟩ := p.cold_spec entry
  refine (perm_ext_iff_of_nodup ?_ nodup_range).2 fun i => ?_
  · grind [kept, nodup_range]
  · grind [kept]

lemma length_kept : (p.kept entry).length = p.nKeptRouted := by
  have hlen := (p.placement_perm entry).length_eq
  have hsum := p.kept_add_spilled
  rw [length_append, length_range, (p.cold_spec entry).1] at hlen
  omega

variable {p entry}

lemma shelf_cold : Shelf p.nSpilled (enumerated (p.cold entry))
    fun r => (p.cold entry).getD r 0 := by
  have hshelf := shelf_enumerated (p.cold_spec entry).2.1
  rwa [(p.cold_spec entry).1] at hshelf

lemma shelf_kept : Shelf p.nKeptRouted (enumerated (p.kept entry))
    fun r => (p.kept entry).getD r 0 := by
  have hshelf := shelf_enumerated ((p.placement_perm entry).nodup_iff.2 nodup_range).of_append_left
  rwa [length_kept] at hshelf

/-! ## The rows of the loader -/

variable {e r : ℕ}

lemma loaderRow_cold (h : enumerated (p.cold entry) e = some r) :
    p.loaderRow entry e = some (.host r) := by
  have hr := shelf_cold.lt_of_place h
  have he := (p.cold_spec entry).2.2.2 e (mem_of_enumerated h)
  rw [loaderRow, spilledExpertHostRow, if_neg (by omega), h]

lemma loaderRow_kept (h : enumerated (p.kept entry) e = some r) :
    p.loaderRow entry e = some (.gpu r) := by
  have hmem : e < p.localRouted ∧ e ∉ p.cold entry := by
    simpa [kept] using mem_of_enumerated h
  rw [loaderRow, spilledExpertHostRow, enumerated_eq_none.2 hmem.2, ite_self,
    remapSharedExpertGpuIndex, if_neg hmem.1.not_ge, h]
  split_ifs with hzero
  · -- nothing is spilled, so that every id is kept at its own place
    have hcold := length_eq_zero_iff.1 ((p.cold_spec entry).1.trans hzero)
    have hlt : e < (range p.localRouted).length := by simpa using hmem.1
    have hself := enumerated_getElem nodup_range hlt
    rw [getD_eq_getElem _ _ hlt, getElem_range] at hself
    rw [kept, hcold] at h
    simp [hself] at h
    rw [h]
    rfl
  · rfl

/-- Shared experts move up behind the kept ones. -/
lemma loaderRow_shared (h : p.localRouted ≤ e) :
    p.loaderRow entry e = some (.gpu (p.nKeptRouted + (e - p.localRouted))) := by
  have hsum := p.kept_add_spilled
  rw [loaderRow, spilledExpertHostRow, if_pos (.inr h), remapSharedExpertGpuIndex, if_pos h]
  split_ifs
  · rw [show p.nKeptRouted + (e - p.localRouted) = e by omega]
    rfl
  · rfl

variable (p entry)

/-- An expert is on the host, kept or shared. -/
lemma kinds (e : ℕ) :
    (∃ r, enumerated (p.cold entry) e = some r ∧ enumerated (p.kept entry) e = none ∧
      e < p.localRouted ∧ p.loaderRow entry e = some (.host r)) ∨
    (∃ r, enumerated (p.cold entry) e = none ∧ enumerated (p.kept entry) e = some r ∧
      e < p.localRouted ∧ p.loaderRow entry e = some (.gpu r)) ∨
    enumerated (p.cold entry) e = none ∧ enumerated (p.kept entry) e = none ∧ p.localRouted ≤ e ∧
      p.loaderRow entry e = some (.gpu (p.nKeptRouted + (e - p.localRouted))) := by
  have hmem := (p.placement_perm entry).mem_iff (a := e)
  have hdisj := nodup_append'.1 ((p.placement_perm entry).nodup_iff.2 nodup_range)
  rw [mem_append, mem_range, or_comm, ← isSome_enumerated, ← isSome_enumerated] at hmem
  cases hcold : enumerated (p.cold entry) e with
  | some r =>
    have hkept := fun h => hdisj.2.2 h (mem_of_enumerated hcold)
    have he : e < p.localRouted := hmem.1 (.inl (by rw [hcold]; rfl))
    exact .inl ⟨r, rfl, enumerated_eq_none.2 hkept, he, loaderRow_cold hcold⟩
  | none =>
    cases hkept : enumerated (p.kept entry) e with
    | some r =>
      have he : e < p.localRouted := hmem.1 (.inr (by rw [hkept]; rfl))
      exact .inr (.inl ⟨r, rfl, rfl, he, loaderRow_kept hkept⟩)
    | none =>
      have he : ¬ e < p.localRouted := by simp [← hmem, hcold, hkept]
      exact .inr (.inr ⟨rfl, rfl, le_of_not_gt he, loaderRow_shared (le_of_not_gt he)⟩)

/-- The expert of a row. -/
def expert : Row → ℕ
  | .host row => (p.cold entry).getD row 0
  | .gpu slot =>
    if slot < p.nKeptRouted then (p.kept entry).getD slot 0
    else p.localRouted + (slot - p.nKeptRouted)

/-- The loader has a row for each expert, and the row tells the expert. -/
lemma loaderRow_spec (e : ℕ) :
    ∃ row, p.loaderRow entry e = some row ∧ p.expert entry row = e ∧
      (e < p.localRouted + p.nShared → row.Valid p) := by
  rcases p.kinds entry e with ⟨r, hr, -, -, hrow⟩ | ⟨r, -, hr, -, hrow⟩ | ⟨-, -, he, hrow⟩
  · exact ⟨_, hrow, shelf_cold.item_of_place hr, fun _ => shelf_cold.lt_of_place hr⟩
  · have hlt := shelf_kept.lt_of_place hr
    refine ⟨_, hrow, (if_pos hlt).trans (shelf_kept.item_of_place hr), fun _ => ?_⟩
    exact Nat.lt_add_right _ hlt
  · refine ⟨_, hrow, (if_neg (by omega)).trans (by omega), fun h => ?_⟩
    rw [Row.Valid]
    omega

/-! ## The tables of the LRU -/

variable {J R : Type} (rows : J → ℕ → R) (hosts : J → Tensor R) (primary : J) (junk : ℕ → R)

def config : Config := ⟨p.localRouted + p.nShared, p.nShared, p.nSpilled⟩

lemma nRouted_config : p.config.nRouted = p.localRouted := Nat.add_sub_cancel ..

lemma nKeptRouted_config : p.config.nKeptRouted = p.nKeptRouted := by
  rw [Config.nKeptRouted, nRouted_config, ← p.kept_add_spilled]
  exact Nat.add_sub_cancel ..

lemma config_args : (p.args entry rows hosts).config primary = p.config := by
  have hsum := p.kept_add_spilled
  rcases hn : p.localRouted + p.nShared with _ | n
  · have hsize : p.nKeptRouted + p.nShared = 0 := by omega
    simp [Args.config, args, config, hn, hsize]
  · simp [Args.config, args, config, hn]

lemma coldList_args : (p.args entry rows hosts).coldList p.config = p.cold entry :=
  (p.cold_spec entry).2.2.1.insertionSort_eq

/-- The LRU accepts the placement of the plan. -/
lemma init_args [Fintype J] : Lru.init (p.args entry rows hosts) primary junk =
    .ok (Lru.built (p.args entry rows hosts) p.config junk) := by
  obtain ⟨hlen, hnodup, -, hlt⟩ := p.cold_spec entry
  have hsum := p.kept_add_spilled
  have hdisj := nodup_append'.1 ((p.placement_perm entry).nodup_iff.2 nodup_range)
  simp only [Lru.init, config_args, coldList_args, nRouted_config, nKeptRouted_config]
  rw [if_neg (by simp only [config]; omega), if_neg (by simp [args]), if_neg, if_neg, if_neg]
  · rintro ⟨-, h | ⟨i, hi, hi'⟩⟩
    · exact h (p.length_kept entry)
    · exact hdisj.2.2 hi hi'
  · rintro (h | ⟨i, hi, hle⟩ | h)
    · exact h hlen
    · exact (hlt i hi).not_ge hle
    · exact h hnodup
  · rintro ⟨-, h⟩
    simp only [args, config] at h
    omega

/-- The books and the tables of the LRU name the rows of the loader. -/
structure Names (s : Lru J R) : Prop where
  slot : ∀ e r, s.idToSlot e = some r ↔ e < p.localRouted ∧ p.loaderRow entry e = some (.gpu r)
  hostSlot : ∀ e r, s.idToHostSlot e = some r ↔ p.loaderRow entry e = some (.host r)
  slotId : ∀ r < p.nKeptRouted, p.loaderRow entry (s.slotToId r) = some (.gpu r)
  hostId : ∀ r < p.nSpilled, p.loaderRow entry (s.hostSlotToId r) = some (.host r)
  tables : ∃ map host, s.ensureDeviceTables.mapTable = some map ∧
    s.ensureDeviceTables.hostMapTable = some host ∧
    ∀ e < p.localRouted + p.nShared, ∃ row, p.loaderRow entry e = some row ∧
      map e = row.gpuEntry ∧ host e = row.hostEntry

/-- The tables of the new LRU name the rows of the loader. -/
lemma names_built : p.Names entry (Lru.built (p.args entry rows hosts) p.config junk) := by
  set s := Lru.built (p.args entry rows hosts) p.config junk
  have hcold := p.coldList_args entry rows hosts
  have hslot : s.idToSlot = enumerated (p.kept entry) := rfl
  have hhost : s.idToHostSlot = enumerated (p.cold entry) := congrArg enumerated hcold
  refine ⟨fun e r => ?_, fun e r => ?_, fun r hr => ?_, fun r hr => ?_, _, _, rfl, rfl,
    fun e he => ?_⟩
  · rw [hslot]
    rcases p.kinds entry e with ⟨_, h⟩ | ⟨_, h⟩ | h <;> simp [h]
  · rw [hhost]
    rcases p.kinds entry e with ⟨_, h⟩ | ⟨_, h⟩ | h <;> simp [h]
  · exact loaderRow_kept (shelf_kept.place_item hr)
  · have hid : s.hostSlotToId r = (p.cold entry).getD r 0 := congrArg (·.getD r 0) hcold
    exact hid ▸ loaderRow_cold (shelf_cold.place_item hr)
  · have hshared : s.nShared = p.nShared := rfl
    rw [Lru.cpuMap, Lru.cpuHost, hslot, hhost, hshared, show s.nRouted = _ from p.nRouted_config,
      show s.nKeptRouted = _ from p.nKeptRouted_config]
    rcases p.kinds entry e with ⟨_, h⟩ | ⟨_, h⟩ | h
    · simp [h, Row.gpuEntry, Row.hostEntry]
    · simp [h, Row.gpuEntry, Row.hostEntry]
    · simp [h, Row.gpuEntry, Row.hostEntry, he, Int.ofNat_sub h.2.2.1]

end SpillPlan

/-- **The loader and the LRU agree** on every plan and every entry of the table: the routed ids are
split into as many kept and cold ones as the plan says, each expert is loaded into one row and no
two into the same, and the tables of the LRU name these rows. -/
theorem placement_agrees (p : SpillPlan) (entry : Option (List ℤ)) :
    (p.spillPlacement entry).1.length = p.nKeptRouted ∧
    (p.spillPlacement entry).2.length = p.nSpilled ∧
    ((p.spillPlacement entry).1 ++ (p.spillPlacement entry).2).Perm (range p.localRouted) ∧
    (∀ e < p.localRouted + p.nShared, ∃ row, p.loaderRow entry e = some row ∧ row.Valid p) ∧
    (p.loaderRow entry).Injective ∧
    ∀ (J R : Type) [Fintype J] (rows : J → ℕ → R) hosts primary junk,
      ∃ s, Lru.init (p.args entry rows hosts) primary junk = .ok s ∧ p.Names entry s := by
  refine ⟨p.length_kept entry, (p.cold_spec entry).1, p.placement_perm entry, fun e he => ?_,
    fun e e' h => ?_, fun _ _ _ _ _ _ _ => ⟨_, p.init_args .., p.names_built ..⟩⟩
  · obtain ⟨row, hrow, -, hvalid⟩ := p.loaderRow_spec entry e
    exact ⟨row, hrow, hvalid he⟩
  · obtain ⟨row, hrow, rfl, -⟩ := p.loaderRow_spec entry e
    obtain ⟨row', hrow', rfl, -⟩ := p.loaderRow_spec entry e'
    rw [Option.some_inj.1 (hrow.symm.trans (h.trans hrow'))]

/-- A budget for two of four experts, and an entry with an id twice and one that is out of range. -/
theorem placement_agrees_of_plan :
    ∃ p, planRoutedExpertSpill 50 4 10 1 2 = some p ∧
      p.spillPlacement (some [3, 7, 3, 1]) = ([0, 2], [1, 3]) ∧
      (p.loaderRow (some [3, 7, 3, 1])).Injective :=
  ⟨_, rfl, by decide, (placement_agrees _ _).2.2.2.2.1⟩

end Sglang.Experts
