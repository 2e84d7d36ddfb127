import Mathlib.Data.List.GetD
import Sglang.Experts.Invariant

/-!
# Runs of the spill LRU

A spill is built over tensors that hold the experts' weights (`Args.Loaded`) and then used.  The
books are right after every sequence of operations (`books_kept`).  The weights are where the books
say as long as no copy to the expert's own row does harm (`weights_kept`), which is always so once
the tensors are shrunk.

* `books_kept`: the maps, the LRU order and the device tables agree after every operation.
* `weights_kept`: under the condition of `Safe` each expert's weights are in the row recorded for
  it, and a batch that fits is served without evicting what it needs.
* `expert_overwritten`: before the tensors are shrunk the condition can fail, and an expert is lost.
-/

namespace Sglang.Experts
open Lib List

/-! ## Construction -/

section
variable {ids : List ℕ} {e p : ℕ}

lemma enumerated_getElem (h : ids.Nodup) (hp : p < ids.length) :
    enumerated ids (ids.getD p 0) = some p := by
  have hmem : ids.getD p 0 ∈ ids := by
    grind
  have hrev : ids.length - 1 - p < ids.reverse.length := by
    rw [length_reverse]
    omega
  have hget : ids.reverse[ids.length - 1 - p] = ids.getD p 0 := by
    grind
  rw [enumerated, if_pos hmem, ← hget, (nodup_reverse.2 h).idxOf_getElem _ hrev]
  congr 1
  omega

lemma mem_of_enumerated (h : enumerated ids e = some p) : e ∈ ids := by
  simp_all [enumerated]

lemma isSome_enumerated : (enumerated ids e).isSome = true ↔ e ∈ ids := by
  simp [enumerated]

lemma enumerated_eq_none : enumerated ids e = none ↔ e ∉ ids := by
  rw [← isSome_enumerated, Option.not_isSome_iff_eq_none]

/-- Experts that are enumerated without repetition are each at their own place. -/
lemma shelf_enumerated (h : ids.Nodup) :
    Shelf ids.length (enumerated ids) fun p => ids.getD p 0 := by
  have hplace : ∀ {e p}, enumerated ids e = some p → p < ids.length ∧ ids.getD p 0 = e := by
    intro e p hp
    obtain ⟨q, hq, rfl⟩ := mem_iff_getElem.1 (mem_of_enumerated hp)
    rw [← getD_eq_getElem _ 0 hq, enumerated_getElem h hq] at hp
    cases hp
    exact ⟨hq, getD_eq_getElem _ _ hq⟩
  exact
    { lt_of_place := fun hp => (hplace hp).1
      item_of_place := fun hp => (hplace hp).2
      place_item := fun hp => enumerated_getElem h hp }

end

variable {J R : Type}

/-- The tensors hold the weights `orig` of the experts, at the places of the initial placement. -/
structure Args.Loaded (a : Args J R) (c : Config) (orig : J → ℕ → R) : Prop where
  kept_nodup : (a.keptList c).Nodup
  kept_routed : ∀ i ∈ a.keptList c, i < c.nRouted
  whole : a.alreadyShrunk = false → ∀ j, (a.weights j).size = c.nExperts ∧
    ∀ i < c.nExperts, (a.weights j).row i = orig j i
  shrunk : a.alreadyShrunk = true → ∀ j,
    (∀ p < c.nKeptRouted, (a.weights j).row p = orig j ((a.keptList c).getD p 0)) ∧
      ∀ i < c.nShared, (a.weights j).row (c.nKeptRouted + i) = orig j (c.nRouted + i)
  hosts : match a.hosts with
    | none => a.alreadyShrunk = false
    | some hosts => ∀ j, ∀ p < c.nSpilled, (hosts j).row p = orig j ((a.coldList c).getD p 0)

/-- Kept and cold experts together are all, so that an expert is kept exactly if it is not cold. -/
lemma mem_kept_iff {n : ℕ} {kept cold : List ℕ} (hkept : kept.Nodup) (hcold : cold.Nodup)
    (hdisj : ∀ i ∈ kept, i ∉ cold) (hk : ∀ i ∈ kept, i < n) (hc : ∀ i ∈ cold, i < n)
    (hlen : n ≤ kept.length + cold.length) {i : ℕ} (hi : i < n) : i ∈ kept ↔ i ∉ cold := by
  refine ⟨hdisj i, fun hnot => ?_⟩
  have hnodup : (kept ++ cold).Nodup :=
    nodup_append.2 ⟨hkept, hcold, fun x hx y hy hxy => hdisj x hx (hxy ▸ hy)⟩
  have hsub : kept ++ cold ⊆ range n := by
    grind
  have hperm : (kept ++ cold).Perm (range n) := by
    refine (hnodup.subperm hsub).perm_of_length_le ?_
    rw [length_range, length_append]
    exact hlen
  exact (mem_append.1 (hperm.mem_iff.2 (mem_range.2 hi))).resolve_right hnot

variable {a : Args J R} {c : Config} {primary : J} {junk : ℕ → R} {s₀ s s' : Lru J R}
  {orig : J → ℕ → R}

/-- What the checks of the constructor leave. -/
structure Args.Checked (a : Args J R) (c : Config) : Prop where
  room : c.nShared + c.nSpilled ≤ c.nExperts
  size : a.alreadyShrunk = true → ∀ j, (a.weights j).size = c.nExperts - c.nSpilled
  cold_length : (a.coldList c).length = c.nSpilled
  cold_routed : ∀ i ∈ a.coldList c, i < c.nRouted
  cold_nodup : (a.coldList c).Nodup
  kept : a.keptIds.isSome = true →
    (a.keptList c).length = c.nKeptRouted ∧ ∀ i ∈ a.keptList c, i ∉ a.coldList c

/-- The ids that are kept by default are the routed ids that are not cold. -/
lemma Args.Checked.kept_valid (h : a.Checked c) (hload : a.Loaded c orig) :
    (a.keptList c).length = c.nKeptRouted ∧ ∀ i ∈ a.keptList c, i ∉ a.coldList c := by
  cases hk : a.keptIds with
  | some ids => exact h.kept (by rw [hk]; rfl)
  | none =>
    have hlist : a.keptList c = (range c.nRouted).filter (· ∉ a.coldList c) := by
      rw [Args.keptList, hk]
    have hnot : ∀ i ∈ a.keptList c, i ∉ a.coldList c := by
      grind
    refine ⟨?_, hnot⟩
    · have hperm : (a.keptList c ++ a.coldList c).Perm (range c.nRouted) := by
        refine (perm_ext_iff_of_nodup ?_ nodup_range).2 fun i => ?_
        · grind [hload.kept_nodup, h.cold_nodup]
        · grind [h.cold_routed]
      have hlen := hperm.length_eq
      rw [length_append, h.cold_length, length_range] at hlen
      rw [Config.nKeptRouted]
      omega

/-- The books of a new spill are right. -/
lemma Args.Checked.books (h : a.Checked c) (hload : a.Loaded c orig) :
    (Lru.built a c junk).Books := by
  obtain ⟨hlen, hdisj⟩ := h.kept_valid hload
  have hshelf := shelf_enumerated hload.kept_nodup
  have hhost := shelf_enumerated h.cold_nodup
  rw [hlen] at hshelf
  rw [h.cold_length] at hhost
  have hsum : c.nRouted = (a.keptList c).length + (a.coldList c).length := by
    have hroom := h.room
    rw [hlen, h.cold_length, Config.nKeptRouted, Config.nRouted]
    omega
  exact
    { shared_le := (Nat.le_add_right _ _).trans h.room
      spilled_le := Nat.le_sub_of_add_le' h.room
      slots := hshelf
      hostSlots := hhost
      slot_routed := fun hi => hload.kept_routed _ (mem_of_enumerated hi)
      host_routed := fun hi => h.cold_routed _ (mem_of_enumerated hi)
      one_place := by
        intro i hi
        refine isSome_enumerated.trans (Iff.trans ?_ enumerated_eq_none.symm)
        exact mem_kept_iff hload.kept_nodup h.cold_nodup hdisj hload.kept_routed h.cold_routed
          hsum.le hi
      lru_perm := .refl _
      kept_length := hlen
      table := nofun
      hostTable := nofun }

/-- The rows of a new spill hold the weights that were loaded. -/
lemma Args.Checked.rows (h : a.Checked c) (hload : a.Loaded c orig) :
    (Lru.built a c junk).Rows orig := by
  have hbooks : (Lru.built a c junk).Books := h.books hload
  have happlied : (Lru.built a c junk).applied = a.alreadyShrunk := rfl
  have hroom := h.room
  have hlt : ∀ {i}, i < c.nRouted → i < c.nExperts := fun hi => hi.trans_le (Nat.sub_le _ _)
  refine { size := fun j => ?_, held := ?_, unmoved := ?_, hostHeld := ?_, shared := ?_ }
  · cases ha : a.alreadyShrunk with
    | true =>
      rw [happlied, ha, if_pos rfl]
      refine (h.size ha j).trans ?_
      change _ = c.nExperts - c.nShared - c.nSpilled + c.nShared
      omega
    | false =>
      rw [happlied, ha, if_neg Bool.false_ne_true]
      exact (hload.whole ha j).1
  · intro hslots j i p hi
    have hitem : (a.keptList c).getD p 0 = i := hbooks.slots.item_of_place hi
    have hp : p < c.nKeptRouted := hbooks.slots.lt_of_place hi
    cases ha : a.alreadyShrunk with
    | true => exact (((hload.shrunk ha j).1 p hp)).trans (congrArg (orig j) hitem)
    | false =>
      have htail : a.keptList c = c.tailKept := by
        rcases hslots with hshrunk | htail
        · grind
        · exact htail
      rw [htail, Config.tailKept, getD_eq_getElem?_getD, getElem?_range hp] at hitem
      subst hitem
      exact (hload.whole ha j).2 p (hlt (hbooks.slot_routed hi))
  · intro hnot
    have ha : a.alreadyShrunk = false := by
      by_contra ha
      exact hnot (.inl (eq_true_of_ne_false ha))
    exact ⟨fun i p hi => hbooks.slots.item_of_place hi, fun j => (hload.whole ha j).2⟩
  · intro j i p hi
    have hitem : (a.coldList c).getD p 0 = i := hbooks.hostSlots.item_of_place hi
    have hp : p < c.nSpilled := hbooks.hostSlots.lt_of_place hi
    have hhosts := hload.hosts
    rw [Lru.built]
    cases hh : a.hosts with
    | some hosts =>
      grind
    | none =>
      rw [hh] at hhosts
      obtain ⟨hsize, hrow⟩ := hload.whole hhosts j
      refine (if_pos (hsize ▸ Nat.sub_le _ _)).trans ?_
      rw [hitem]
      exact hrow i (hlt (hbooks.host_routed hi))
  · intro j i hi
    cases ha : a.alreadyShrunk with
    | true =>
      rw [Lru.sharedRow, happlied, if_pos ha]
      exact (hload.shrunk ha j).2 i hi
    | false =>
      rw [Lru.sharedRow, happlied, ha, if_neg Bool.false_ne_true]
      refine (hload.whole ha j).2 _ ?_
      change c.nExperts - c.nShared + i < c.nExperts
      have hi' : i < c.nShared := hi
      omega

section
variable [Fintype J]

/-- A constructor that does not raise has passed its checks. -/
lemma init_ok (h : Lru.init a primary junk = .ok s) :
    a.Checked (a.config primary) ∧ s = Lru.built a (a.config primary) junk := by
  rw [Lru.init] at h
  split at h
  · cases h
  next hroom =>
  split at h
  · cases h
  next hsibling =>
  split at h
  · cases h
  next hshrunk =>
  dsimp only at h
  split at h
  · cases h
  next hcold =>
  split at h
  · cases h
  next hkept =>
  push Not at hroom hsibling hshrunk hcold hkept
  refine ⟨?_, (Except.ok.inj h).symm⟩
  exact
    { room := hroom
      size := fun ha j => (hsibling j).trans (hshrunk ha)
      cold_length := hcold.1
      cold_routed := hcold.2.1
      cold_nodup := hcold.2.2
      kept := hkept }

end

/-! ## Runs -/

/-- What is done with a spill; `tables` is the first use of the device tables. -/
inductive Op
  | ensure (ids : List ℤ)
  | tables
  | shrink

namespace Lru

/-- An `ensure` that raises leaves the state as it was when it raised. -/
def step (s : Lru J R) : Op → Option (Lru J R)
  | .ensure ids => some (s.ensure ids).1
  | .tables => some s.ensureDeviceTables
  | .shrink => some s.applyShrink

/-- No copy to the expert's own row does harm. -/
def Safe (s : Lru J R) : Op → Prop
  | .ensure ids => s.SlotRows → SafeLoop (s.batchOf ids) s ids
  | .tables => True
  | .shrink => True

instance (s : Lru J R) : DecidablePred s.Safe
  | .ensure ids => inferInstanceAs (Decidable (s.SlotRows → SafeLoop (s.batchOf ids) s ids))
  | .tables => isTrue trivial
  | .shrink => isTrue trivial

lemma Books.step {op : Op} (h : s.Books) (hs : s.step op = some s') : s'.Books := by
  cases op with
  | ensure ids =>
    cases hs
    exact h.ensure ids
  | tables =>
    cases hs
    exact h.ensureDeviceTables
  | shrink =>
    cases hs
    exact h.applyShrink

lemma Rows.step {op : Op} (h : s.Rows orig) (hbooks : s.Books) (hsafe : s.Safe op)
    (hs : s.step op = some s') : s'.Rows orig := by
  cases op with
  | ensure ids =>
    cases hs
    exact h.ensure hbooks hsafe
  | tables =>
    cases hs
    exact h.ensureDeviceTables
  | shrink =>
    cases hs
    exact h.applyShrink hbooks

/-- In shrunk tensors the copy that does harm is not made. -/
lemma safeLoop_of_applied {batch : List ℕ} (ids : List ℤ) (ha : s.applied = true) :
    SafeLoop batch s ids := by
  induction ids generalizing s with
  | nil => trivial
  | cons logical ids ih =>
    refine ⟨fun _ => .inl ha, ?_⟩
    cases hone : s.ensureOne batch logical with
    | error e => trivial
    | ok s' => exact ih ((ensureOne_config hone).2.trans ha)

section
variable [Fintype J]

/-- The books are right after every sequence of operations. -/
lemma books_kept {ok : Lru J R → Op → Prop} (h0 : init a primary junk = .ok s₀)
    (hload : a.Loaded (a.config primary) orig) (hrun : Run step ok s₀ s) : s.Books := by
  obtain ⟨hchecked, rfl⟩ := init_ok h0
  exact hrun.invariant (hchecked.books hload) fun _ _ _ h _ hs => h.step hs

/-- **The spill keeps every expert.** -/
theorem weights_kept (h₀ : init a primary junk = .ok s₀)
    (hload : a.Loaded (a.config primary) orig) (hrun : Run step Safe s₀ s) :
    s.Books ∧ s.Rows orig ∧ ∀ ids, (s.batchOf ids).toFinset.card ≤ s.nKeptRouted →
      ((s.SlotRows → (∀ i ∈ ids, 0 ≤ i → i.toNat < s.nExperts) → (s.ensure ids).2 = none) ∧
        ((s.ensure ids).2 = none → (s.ensure ids).1.nThrash = s.nThrash ∧
          ∀ i ∈ s.batchOf ids, (s.ensure ids).1.Resident i ∧
            (s.Resident i → (s.ensure ids).1.idToSlot i = s.idToSlot i))) := by
  have hbooks := books_kept h₀ hload hrun
  obtain ⟨hchecked, rfl⟩ := init_ok h₀
  have hboth : s.Books ∧ s.Rows orig := by
    refine hrun.invariant (I := fun s => s.Books ∧ s.Rows orig)
      ⟨hchecked.books hload, hchecked.rows hload⟩ ?_
    rintro s op s' ⟨hb, hr⟩ hsafe hs
    exact ⟨hb.step hs, hr.step hb hsafe hs⟩
  refine ⟨hbooks, hboth.2, fun ids hcard => ⟨fun hslots hlt => ?_, fun hok => ?_⟩⟩
  · exact ensure_ok hbooks hslots hcard hlt
  · exact ensure_resident hbooks hcard hok

end

/-- Four experts, two of them spilled, not yet shrunk; the weights of an expert are its number. -/
def tailArgs : Args Unit ℕ where
  weights _ := ⟨4, id⟩
  nShared := 0
  nSpilled := 2
  hosts := none
  logicalNExperts := none
  alreadyShrunk := false
  keptIds := none
  coldIds := none

lemma tailArgs_loaded : tailArgs.Loaded (tailArgs.config ()) fun _ i => i where
  kept_nodup := by decide
  kept_routed := by decide
  whole _ _ := ⟨rfl, fun _ _ => rfl⟩
  shrunk h := by cases h
  hosts := rfl

lemma tailArgs_init :
    init tailArgs () (fun _ => 0) = .ok (built tailArgs (tailArgs.config ()) fun _ => 0) := by
  rfl

/-- Expert 2 takes slot 0; then expert 0 takes slot 1 and is also copied to row 0. -/
theorem expert_overwritten :
    ∃ s₀ s : Lru Unit ℕ, init tailArgs () (fun _ => 0) = .ok s₀ ∧
      tailArgs.Loaded (tailArgs.config ()) (fun _ i => i) ∧
      Run step (fun _ _ => True) s₀ s ∧ s.idToSlot 2 = some 0 ∧ (s.gpus ()).row 0 = 0 := by
  obtain ⟨s, hrun, hs⟩ := Run.exists_of_any step (fun _ _ => True)
    (built tailArgs (tailArgs.config ()) fun _ => 0) [.ensure [2], .ensure [0]]
    (fun s => s.idToSlot 2 = some 0 ∧ (s.gpus ()).row 0 = 0) (by decide) (by decide)
  exact ⟨_, s, tailArgs_init, tailArgs_loaded, hrun, hs⟩

/-- The weights of an expert in two tensors. -/
def pairRow (scale : Bool) (expert : ℕ) : ℕ := if scale then 10 + expert else expert

/-- As `tailArgs`, with two tensors and a shared expert after the routed ones. -/
def pairArgs : Args Bool ℕ where
  weights scale := ⟨5, pairRow scale⟩
  nShared := 1
  nSpilled := 2
  hosts := none
  logicalNExperts := none
  alreadyShrunk := false
  keptIds := none
  coldIds := none

lemma pairArgs_loaded : pairArgs.Loaded (pairArgs.config false) pairRow where
  kept_nodup := by decide
  kept_routed := by decide
  whole _ _ := ⟨rfl, fun _ _ => rfl⟩
  shrunk h := by cases h
  hosts := rfl

/-- Once the tensors are shrunk the same ids are safe. -/
theorem weights_kept_shrunk :
    ∃ s : Lru Bool ℕ, s.Rows pairRow ∧ s.Resident 0 ∧ s.idToSlot 2 = some 0 := by
  obtain ⟨s, hrun, hs⟩ := Run.exists_of_any step Safe
    (built pairArgs (pairArgs.config false) fun _ => 0) [.ensure [2], .shrink, .ensure [0], .tables]
    (fun s => s.Resident 0 ∧ s.idToSlot 2 = some 0) (by decide) (by decide)
  exact ⟨s, (weights_kept (a := pairArgs) rfl pairArgs_loaded hrun).2.1, hs⟩

end Lru

end Sglang.Experts
