import Sglang.Experts.Lru

/-!
# Landing slots

The decode path of the expert spill (`sm70_dsv41_spill_pagein.cuh`).  `spill_assign_kernel` goes
once through the ids of a batch: ids of resident experts are replaced by their rows, and each other
expert gets a landing slot while there are any.  `spill_copy_kernel` then copies host rows to the
slots.  A row is copied whole here, not in pieces of 16 bytes.

* `assignOne_spec` and `assignLoop_spec`: every id gets its outcome (a row, a landing slot, or none
  when the slots are used up), and the slots are filled in order, each for one expert.
-/

namespace Sglang.Experts
open Lib List Function Finset

/-- The variables of `spill_assign_kernel`. -/
structure Assign where
  next : ℕ
  assignedId : ℕ → ℤ
  slotHostRow : ℕ → ℤ

namespace Assign

def start : Assign where
  next := 0
  assignedId _ := -1
  slotHostRow _ := -1

section
variable (mapTable hostMap : ℕ → ℤ) (nLogical nLanding : ℕ)

/-- One round of the loop; also what `topk_ids[i]` and `land_ids[i]` become. -/
def assignOne (a : Assign) (id : ℤ) : Assign × ℤ × ℤ :=
  if id < 0 ∨ nLogical ≤ id then (a, id, -1)
  else if 0 ≤ mapTable id.toNat then (a, mapTable id.toNat, -1)
  else
    match (List.range a.next).find? fun slot => a.assignedId slot = id with
    | some slot => (a, -1, slot)
    | none =>
      let hs := hostMap id.toNat
      if hs < 0 ∨ nLanding ≤ a.next then (a, -1, -1)
      else
        ({ next := a.next + 1
           assignedId := update a.assignedId a.next id
           slotHostRow := update a.slotHostRow a.next hs }, -1, a.next)

/-- `spill_assign_kernel`, from some variables on. -/
def assignLoop : Assign → List ℤ → Assign × List (ℤ × ℤ)
  | a, [] => (a, [])
  | a, id :: ids =>
    let (a', out) := assignOne mapTable hostMap nLogical nLanding a id
    let (a'', outs) := assignLoop a' ids
    (a'', out :: outs)

/-- The ids that have no row. -/
def Missing (id : ℤ) : Prop := 0 ≤ id ∧ id < nLogical ∧ mapTable id.toNat < 0

instance : DecidablePred (Missing mapTable nLogical) := fun _ => inferInstanceAs (Decidable (_ ∧ _))

/-- The distinct missing ids of a batch. -/
def misses (ids : List ℤ) : Finset ℤ := (ids.filter (Missing mapTable nLogical)).toFinset

/-- The slots that are used hold distinct missing ids, with their host rows. -/
structure Fits (M : Finset ℤ) (a : Assign) : Prop where
  next_le : a.next ≤ nLanding
  inj : Set.InjOn a.assignedId (Set.Iio a.next)
  mem : ∀ slot < a.next, a.assignedId slot ∈ M
  row : ∀ slot < a.next, a.slotHostRow slot = hostMap (a.assignedId slot).toNat
  unused : ∀ slot, a.next ≤ slot → a.slotHostRow slot = -1

/-- Slots are only added. -/
structure Extends (a a' : Assign) : Prop where
  next_le : a.next ≤ a'.next
  ids : ∀ slot < a.next, a'.assignedId slot = a.assignedId slot

/-- What an id is replaced by, given the variables at the end. -/
inductive Outcome (a : Assign) (id : ℤ) : ℤ × ℤ → Prop
  | skip (h : id < 0 ∨ nLogical ≤ id) : Outcome a id (id, -1)
  | hit (h : 0 ≤ id) (hlt : id < nLogical) (hmap : 0 ≤ mapTable id.toNat) :
      Outcome a id (mapTable id.toNat, -1)
  | landed (h : Missing mapTable nLogical id) {slot : ℕ} (hslot : slot < a.next)
      (hid : a.assignedId slot = id) : Outcome a id (-1, slot)
  | dropped (h : Missing mapTable nLogical id) (hfull : a.next = nLanding)
      (hnot : ∀ slot < a.next, a.assignedId slot ≠ id) : Outcome a id (-1, -1)

end

variable {mapTable hostMap : ℕ → ℤ} {nLogical nLanding : ℕ} {M : Finset ℤ} {a a' a'' : Assign}
  {id : ℤ}

lemma Extends.refl (a : Assign) : Extends a a := ⟨le_rfl, fun _ _ => rfl⟩

lemma Extends.trans (h : Extends a a') (h' : Extends a' a'') : Extends a a'' where
  next_le := h.next_le.trans h'.next_le
  ids slot hslot := (h'.ids slot (hslot.trans_le h.next_le)).trans (h.ids slot hslot)

lemma Fits.start : Fits hostMap nLanding M start where
  next_le := Nat.zero_le _
  inj _ h := absurd h (Nat.not_lt_zero _)
  mem _ h := absurd h (Nat.not_lt_zero _)
  row _ h := absurd h (Nat.not_lt_zero _)
  unused _ _ := rfl

/-- Landing slots that are used up stay so. -/
lemma Extends.full (h : Extends a a') (h' : Fits hostMap nLanding M a')
    (hfull : a.next = nLanding) : a'.next = nLanding :=
  le_antisymm h'.next_le (hfull ▸ h.next_le)

variable {out : ℤ × ℤ}

/-- What was decided for an id stays as it is while later ids are looked at. -/
lemma Outcome.mono (h : Outcome mapTable nLogical nLanding a id out) (hext : Extends a a')
    (hfits : Fits hostMap nLanding M a') : Outcome mapTable nLogical nLanding a' id out := by
  cases h with
  | skip h => exact .skip h
  | hit h hlt hmap => exact .hit h hlt hmap
  | landed h hslot hid =>
    exact .landed h (hslot.trans_le hext.next_le) ((hext.ids _ hslot).trans hid)
  | dropped h hfull hnot =>
    have hfull' := hext.full hfits hfull
    refine .dropped h hfull' fun slot hslot => ?_
    have hslot' : slot < a.next := by omega
    rw [hext.ids slot hslot']
    exact hnot slot hslot'

/-- An expert that is not resident has a landing slot, or there was none left. -/
lemma Outcome.landed_or_full (h : Outcome mapTable nLogical nLanding a id out)
    (hmiss : Missing mapTable nLogical id) :
    (∃ slot < a.next, a.assignedId slot = id) ∨ a.next = nLanding := by
  cases h with
  | skip hskip => exact absurd hskip (by have := hmiss.1; have := hmiss.2.1; omega)
  | hit _ _ hmap => exact absurd hmap (Int.not_le.2 hmiss.2.2)
  | landed _ hslot hid => exact .inl ⟨_, hslot, hid⟩
  | dropped _ hfull _ => exact .inr hfull

lemma Fits.add (h : Fits hostMap nLanding M a) (hroom : a.next < nLanding) (hid : id ∈ M)
    (hnew : ∀ slot < a.next, a.assignedId slot ≠ id) :
    Fits hostMap nLanding M
      { next := a.next + 1
        assignedId := update a.assignedId a.next id
        slotHostRow := update a.slotHostRow a.next (hostMap id.toNat) } where
  next_le := hroom
  inj := by
    intro x hx y hy hxy
    rcases Nat.lt_succ_iff_lt_or_eq.1 hx with hx | rfl <;>
      rcases Nat.lt_succ_iff_lt_or_eq.1 hy with hy | rfl
    · simp only [update_of_ne hx.ne, update_of_ne hy.ne] at hxy
      exact h.inj hx hy hxy
    · simp only [update_of_ne hx.ne, update_self] at hxy
      exact absurd hxy (hnew x hx)
    · simp only [update_of_ne hy.ne, update_self] at hxy
      exact absurd hxy.symm (hnew y hy)
    · rfl
  mem slot hslot := by
    rcases Nat.lt_succ_iff_lt_or_eq.1 hslot with hslot | rfl
    · simp only [update_of_ne hslot.ne]
      exact h.mem slot hslot
    · simp only [update_self]
      exact hid
  row slot hslot := by
    rcases Nat.lt_succ_iff_lt_or_eq.1 hslot with hslot | rfl
    · simp only [update_of_ne hslot.ne]
      exact h.row slot hslot
    · simp only [update_self]
  unused slot hslot := by
    have hlt : a.next < slot := hslot
    simp only [update_of_ne hlt.ne']
    exact h.unused slot hlt.le

/-- **One round** keeps the slots in order; `hosts` says that missing ids have host rows. -/
theorem assignOne_spec (h : Fits hostMap nLanding M a)
    (hosts : Missing mapTable nLogical id → 0 ≤ hostMap id.toNat)
    (hM : Missing mapTable nLogical id → id ∈ M) :
    Fits hostMap nLanding M (assignOne mapTable hostMap nLogical nLanding a id).1 ∧
      Extends a (assignOne mapTable hostMap nLogical nLanding a id).1 ∧
      Outcome mapTable nLogical nLanding (assignOne mapTable hostMap nLogical nLanding a id).1 id
        (assignOne mapTable hostMap nLogical nLanding a id).2 := by
  rw [assignOne]
  split
  next hskip => exact ⟨h, .refl a, .skip hskip⟩
  next hvalid =>
  push Not at hvalid
  split
  next hmap => exact ⟨h, .refl a, .hit hvalid.1 hvalid.2 hmap⟩
  next hmap =>
  have hmiss : Missing mapTable nLogical id := ⟨hvalid.1, hvalid.2, Int.not_le.1 hmap⟩
  split
  next slot hfind =>
    have hslot := List.mem_range.1 (mem_of_find?_eq_some hfind)
    have hid := find?_some hfind
    exact ⟨h, .refl a, .landed hmiss hslot (of_decide_eq_true hid)⟩
  next hfind =>
    have hnew : ∀ slot < a.next, a.assignedId slot ≠ id := by
      grind
    dsimp only
    split
    next hfull =>
      have hnext : a.next = nLanding :=
        le_antisymm h.next_le (hfull.resolve_left (Int.not_lt.2 (hosts hmiss)))
      exact ⟨h, .refl a, .dropped hmiss hnext hnew⟩
    next hroom =>
      push Not at hroom
      refine ⟨h.add hroom.2 (hM hmiss) hnew, ⟨Nat.le_succ _, fun slot hslot => ?_⟩, ?_⟩
      · exact update_of_ne hslot.ne _ _
      · exact .landed hmiss (Nat.lt_succ_self _) (update_self ..)

/-- **The loop**: every id has its outcome in the variables at the end. -/
theorem assignLoop_spec (ids : List ℤ) (h : Fits hostMap nLanding M a)
    (hosts : ∀ id ∈ ids, Missing mapTable nLogical id → 0 ≤ hostMap id.toNat)
    (hM : ∀ id ∈ ids, Missing mapTable nLogical id → id ∈ M) :
    Fits hostMap nLanding M (assignLoop mapTable hostMap nLogical nLanding a ids).1 ∧
      Extends a (assignLoop mapTable hostMap nLogical nLanding a ids).1 ∧
      List.Forall₂ (Outcome mapTable nLogical nLanding
        (assignLoop mapTable hostMap nLogical nLanding a ids).1) ids
        (assignLoop mapTable hostMap nLogical nLanding a ids).2 := by
  induction ids generalizing a with
  | nil => exact ⟨h, .refl a, .nil⟩
  | cons id ids ih =>
    obtain ⟨h1, hext1, hout⟩ := assignOne_spec h (hosts id List.mem_cons_self)
      (hM id List.mem_cons_self)
    obtain ⟨h2, hext2, houts⟩ := ih h1 (fun id hid => hosts id (List.mem_cons_of_mem _ hid))
      fun id hid => hM id (List.mem_cons_of_mem _ hid)
    exact ⟨h2, hext1.trans hext2, .cons (hout.mono hext2 h2) houts⟩

lemma Fits.card_image (h : Fits hostMap nLanding M a) :
    ((Finset.range a.next).image a.assignedId).card = a.next := by
  grind [h.inj]

/-- If all misses fit, an expert finds a slot even when all slots are taken: it has one already. -/
lemma Fits.not_dropped (h : Fits hostMap nLanding M a) (hcard : M.card ≤ nLanding) (hid : id ∈ M)
    (hfull : a.next = nLanding) : ∃ slot < a.next, a.assignedId slot = id := by
  have hsub : (Finset.range a.next).image a.assignedId ⊆ M := by
    grind [h.mem]
  have heq := eq_of_subset_of_card_le hsub (by rw [h.card_image, hfull]; exact hcard)
  rw [← heq] at hid
  obtain ⟨slot, hslot, rfl⟩ := mem_image.1 hid
  exact ⟨slot, Finset.mem_range.1 hslot, rfl⟩

/-- If every miss has landed there were enough slots. -/
lemma Fits.card_le (h : Fits hostMap nLanding M a)
    (hall : ∀ id ∈ M, ∃ slot < a.next, a.assignedId slot = id) : M.card ≤ nLanding := by
  refine le_trans (le_trans (card_le_card fun id hid => ?_) h.card_image.le) h.next_le
  obtain ⟨slot, hslot, rfl⟩ := hall id hid
  exact mem_image.2 ⟨slot, Finset.mem_range.2 hslot, rfl⟩

end Assign

/-! ## The pool -/

variable {J R : Type}

/-- `SpillLandingPool`: the rows are there for every layer of the device. -/
structure Pool (J R : Type) where
  nLanding : ℕ
  pos : 0 < nLanding
  tensors : J → Tensor R

/-- `spill_copy_kernel` -/
def Pool.copyRows (pool : Pool J R) (a : Assign) (hosts : J → Tensor R) : Pool J R :=
  { pool with
    tensors := fun j =>
      { pool.tensors j with
        row := fun slot =>
          if slot < pool.nLanding ∧ 0 ≤ a.slotHostRow slot then
            (hosts j).row (a.slotHostRow slot).toNat
          else (pool.tensors j).row slot } }

def kMaxLanding : ℕ := 48

/-- `page_in_spill_experts`, with the checks of `spill_page_in` that can fail; `topk` are the
entries of the matrix, row by row, and each comes back with its entry of `land_ids`. -/
def pageInSpillExperts (pool : Pool J R) (s : Lru J R) (topk : List ℤ) :
    Lru J R × Option (Pool J R × List (ℤ × ℤ)) :=
  let s := s.ensureDeviceTables
  match s.mapTable, s.hostMapTable with
  | some mapTable, some hostMap =>
    if kMaxLanding < pool.nLanding ∨ topk = [] then (s, none)
    else
      let (a, outs) := Assign.assignLoop mapTable hostMap s.nExperts pool.nLanding .start topk
      (s, some (pool.copyRows a s.hosts, outs))
  | _, _ => (s, none)

end Sglang.Experts
