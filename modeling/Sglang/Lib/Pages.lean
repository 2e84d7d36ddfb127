import Mathlib.Algebra.Order.Floor.Div
import Mathlib.Tactic

/-!
# Positions and pages

A sequence of positions is cut into pages of `ps` positions each.  `pages ps n` is how many pages
the first `n` positions reach into; a position `p` lies on page `p / ps` at offset `p % ps`.
-/

namespace Lib

/-- The number of pages that `n` positions reach into. -/
def pages (ps n : Nat) : Nat := (n + ps - 1) / ps

variable {ps : Nat}

/-- The page of a slot, from its page and offset. -/
lemma page_mul_add {a o : Nat} (ho : o < ps) : (a * ps + o) / ps = a := by
  rw [mul_comm, Nat.mul_add_div (by omega), Nat.div_eq_of_lt ho, add_zero]

variable {n : Nat}

/-- The next position is on the same page, unless it starts one. -/
lemma succ_of_mod_ne_zero (h : (n + 1) % ps ≠ 0) :
    (n + 1) / ps = n / ps ∧ (n + 1) % ps = n % ps + 1 := by
  grind [Nat.succ_div_of_not_dvd, Nat.mod_eq_zero_of_dvd, Nat.div_add_mod']

@[simp] lemma pages_zero (ps : Nat) : pages ps 0 = 0 := by
  rw [pages, zero_add]
  cases ps with
  | zero => rfl
  | succ ps => exact Nat.div_eq_of_lt (Nat.lt_succ_self ps)

section
variable (hps : 0 < ps)

include hps

lemma pages_le_iff {k : Nat} : pages ps n ≤ k ↔ n ≤ ps * k := by
  have h := ceilDiv_le_iff_le_mul (b := n) (c := k) hps
  rwa [Nat.ceilDiv_eq_add_pred_div] at h

lemma lt_pages_iff {k : Nat} : k < pages ps n ↔ ps * k < n := by
  rw [← not_le, pages_le_iff hps, not_le]

lemma pages_mono {n' : Nat} (h : n ≤ n') : pages ps n ≤ pages ps n' := by
  rw [pages_le_iff hps]
  exact le_trans h ((pages_le_iff hps).1 (le_refl _))

lemma le_mul_pages (n : Nat) : n ≤ ps * pages ps n := (pages_le_iff hps).1 (le_refl _)

lemma pages_mul_lt (n : Nat) : pages ps n * ps < n + ps := by
  have h := Nat.div_mul_le_self (n + ps - 1) ps
  rw [pages]
  omega

/-- A position before the last page boundary of `n` lies on a page that `n` reaches into. -/
lemma div_lt_pages {p : Nat} (h : p < n) : p / ps < pages ps n := by
  rw [lt_pages_iff hps]
  exact lt_of_le_of_lt (Nat.mul_div_le p ps) h

lemma pages_of_mod_eq_zero (h : n % ps = 0) : pages ps n = n / ps := by
  have hn : ps * (n / ps) = n := Nat.mul_div_cancel' (Nat.dvd_of_mod_eq_zero h)
  refine le_antisymm ((pages_le_iff hps).2 (le_of_eq hn.symm)) ?_
  rw [Nat.div_le_iff_le_mul_add_pred hps]
  have := le_mul_pages hps n
  omega

lemma pages_of_mod_ne_zero (h : n % ps ≠ 0) : pages ps n = n / ps + 1 := by
  have hn := Nat.div_add_mod n ps
  have hlt := Nat.mod_lt n hps
  refine le_antisymm ((pages_le_iff hps).2 ?_) ((lt_pages_iff hps).2 ?_)
  · grind
  · omega

end

end Lib
