import Mathlib.Tactic

/-!
# Ledgers

A pool whose items are free or in the hands of a holder.  The *ledger* lists every item: the free
ones, then the share of each holder.  An operation of the pool moves items between the free list and
one holder, and the ledger is then the same up to order (`ledger_update`).  If no item is listed
twice, an item is free or in exactly one share.
-/

namespace Lib
open List

variable {α β : Type*}

/-- Everything there is: what is free, and what each holder has. -/
def ledger (free : List β) (holders : List α) (share : α → List β) : List β :=
  free ++ holders.flatMap share

variable {free free' : List β} {holders : List α} {share share' : α → List β}

lemma flatMap_congr_of_mem (h : ∀ b ∈ holders, share' b = share b) :
    holders.flatMap share' = holders.flatMap share := by
  induction holders with
  | nil => rfl
  | cons b l ih =>
    grind

/-- **The update rule**: what one holder gains or gives back, the free list loses or gets. -/
theorem ledger_update {a : α} (hnd : holders.Nodup) (ha : a ∈ holders)
    (hother : ∀ b ∈ holders, b ≠ a → share' b = share b)
    (h : (free' ++ share' a).Perm (free ++ share a)) :
    (ledger free' holders share').Perm (ledger free holders share) := by
  obtain ⟨l, r, rfl⟩ := append_of_mem ha
  rw [nodup_append, nodup_cons] at hnd
  have hl : l.flatMap share' = l.flatMap share := flatMap_congr_of_mem fun b hb =>
    hother b (mem_append_left _ hb) fun heq => hnd.2.2 b hb a (by simp) heq
  have hr : r.flatMap share' = r.flatMap share := flatMap_congr_of_mem fun b hb =>
    hother b (mem_append_right _ (mem_cons_of_mem _ hb)) fun heq =>
      hnd.2.1.1 (heq ▸ hb)
  rw [ledger, ledger, flatMap_append, flatMap_append, flatMap_cons, flatMap_cons, hl, hr]
  rw [← Multiset.coe_eq_coe] at h ⊢
  simp only [← Multiset.coe_add] at h ⊢
  calc (free' : Multiset β) + (↑(l.flatMap share) + (↑(share' a) + ↑(r.flatMap share)))
      = (↑free' + ↑(share' a)) + (↑(l.flatMap share) + ↑(r.flatMap share)) := by abel
    _ = (↑free + ↑(share a)) + (↑(l.flatMap share) + ↑(r.flatMap share)) := by rw [h]
    _ = ↑free + (↑(l.flatMap share) + (↑(share a) + ↑(r.flatMap share))) := by abel

lemma flatMap_perm_of_support [DecidableEq α] {owners : List α} (hnd : holders.Nodup)
    (hown : owners.Nodup) (hsub : ∀ a ∈ owners, a ∈ holders ∨ share a = [])
    (hnone : ∀ a ∈ holders, a ∉ owners → share a = []) :
    (holders.flatMap share).Perm (owners.flatMap share) := by
  have hdrop : ∀ (l : List α) (p : α → Bool), (∀ a ∈ l, p a = false → share a = []) →
      l.flatMap share = (l.filter p).flatMap share := by
    intro l p hp
    induction l with
    | nil => rfl
    | cons a l ih =>
      grind
  rw [hdrop holders (fun a => decide (a ∈ owners)) fun a ha h => hnone a ha (by simpa using h),
    hdrop owners (fun a => decide (a ∈ holders)) fun a ha h =>
      (hsub a ha).resolve_left (by simpa using h)]
  refine List.Perm.flatMap_right _ ?_
  rw [perm_ext_iff_of_nodup (hnd.filter _) (hown.filter _)]
  intro a
  simp only [mem_filter, decide_eq_true_eq]
  exact And.comm

lemma not_mem_free_of_mem_share {a : α} {x : β} (hnd : (ledger free holders share).Nodup)
    (ha : a ∈ holders) (hx : x ∈ share a) : x ∉ free := by
  rw [ledger, nodup_append] at hnd
  intro hf
  exact hnd.2.2 x hf x (mem_flatMap.2 ⟨a, ha, hx⟩) rfl

end Lib
