import Mathlib.Tactic

/-!
# Shelves

A shelf has places `0, ..., n - 1`, and something stands at every place.  It is described twice, by
where an item stands (if it does) and by what stands at a place; `Shelf` says that the two
descriptions agree.  The one operation is an exchange: an item that is not on the shelf takes the
place of one that is.

`Stores` says that every place holds what belongs to the item that stands there.
-/

namespace Lib
open Function Finset

variable {ι R : Type} {n p : ℕ} {place : ι → Option ℕ} {item : ℕ → ι} {a b : ι}

/-- The two descriptions of a full shelf agree. -/
structure Shelf (n : ℕ) (place : ι → Option ℕ) (item : ℕ → ι) : Prop where
  lt_of_place : ∀ {a p}, place a = some p → p < n
  item_of_place : ∀ {a p}, place a = some p → item p = a
  place_item : ∀ {p}, p < n → place (item p) = some p

/-- Every place holds what belongs to its item. -/
def Stores (place : ι → Option ℕ) (rows : ℕ → R) (content : ι → R) : Prop :=
  ∀ a p, place a = some p → rows p = content a

/-- Where items stand after `b` has taken the place `p` of `a`. -/
def exchanged [DecidableEq ι] (place : ι → Option ℕ) (a b : ι) (p : ℕ) : ι → Option ℕ :=
  update (update place a none) b (some p)

section
variable [DecidableEq ι]

lemma exchanged_in : exchanged place a b p b = some p := update_self ..

lemma exchanged_out (h : a ≠ b) : exchanged place a b p a = none := by
  rw [exchanged, update_of_ne h, update_self]

variable {c : ι}

lemma exchanged_other (ha : c ≠ a) (hb : c ≠ b) : exchanged place a b p c = place c := by
  rw [exchanged, update_of_ne hb, update_of_ne ha]

lemma exchanged_eq_some {q : ℕ} (h : exchanged place a b p c = some q) :
    c = b ∧ q = p ∨ c ≠ b ∧ c ≠ a ∧ place c = some q := by
  by_cases hb : c = b
  · grind [exchanged_in]
  by_cases ha : c = a
  · simp_all [exchanged_out (ha ▸ hb)]
  · simp_all [exchanged_other ha hb]

lemma isSome_exchanged :
    (exchanged place a b p c).isSome = true ↔ c = b ∨ c ≠ a ∧ (place c).isSome = true := by
  by_cases hb : c = b
  · simp [hb, exchanged_in]
  by_cases ha : c = a
  · grind [exchanged_out]
  · grind [exchanged_other]

end

namespace Shelf

lemma item_inj (h : Shelf n place item) {q : ℕ} (hp : p < n) (hq : q < n)
    (heq : item p = item q) : p = q := by
  have hplace := h.place_item hp
  rw [heq, h.place_item hq] at hplace
  exact (Option.some.inj hplace).symm

variable [DecidableEq ι]

lemma exchange (h : Shelf n place item) (hp : p < n) (hb : place b = none) :
    Shelf n (exchanged place (item p) b p) (update item p b) where
  lt_of_place {c q} hc := by
    rcases exchanged_eq_some hc with ⟨-, rfl⟩ | ⟨-, -, hc'⟩
    · exact hp
    · exact h.lt_of_place hc'
  item_of_place {c q} hc := by
    grind [exchanged_eq_some, h.item_of_place]
  place_item {q} hq := by
    grind [exchanged_in, h.item_inj, h.place_item, exchanged_other]

lemma card_items (h : Shelf n place item) : ((range n).image item).card = n := by
  rw [card_image_of_injOn, card_range]
  intro p hp q hq heq
  exact h.item_inj (mem_range.1 hp) (mem_range.1 hq) heq

variable {B : Finset ι}

lemma card_le (h : Shelf n place item) (hB : ∀ b ∈ B, place b ≠ none) : B.card ≤ n := by
  rw [← h.card_items]
  refine card_le_card fun b hb => ?_
  obtain ⟨p, hp⟩ := Option.ne_none_iff_exists'.1 (hB b hb)
  exact mem_image.2 ⟨p, mem_range.2 (h.lt_of_place hp), h.item_of_place hp⟩

/-- If one of at most `n` items is missing, some place is taken by none of them. -/
lemma exists_item_notMem (h : Shelf n place item) (hcard : B.card ≤ n) (hb : b ∈ B)
    (hnone : place b = none) : ∃ p < n, item p ∉ B := by
  by_contra hall
  have hsub : (range n).image item ⊆ B.erase b := by
    grind [h.place_item]
  have hle := card_le_card hsub
  rw [h.card_items, card_erase_of_mem hb] at hle
  have hpos := card_pos.2 ⟨b, hb⟩
  omega

lemma stores_exchange (h : Shelf n place item) {rows : ℕ → R} {content : ι → R} (hp : p < n)
    (hrows : Stores place rows content) :
    Stores (exchanged place (item p) b p) (update rows p (content b)) content := by
  intro c q hc
  rcases exchanged_eq_some hc with ⟨rfl, rfl⟩ | ⟨-, ha, hc'⟩
  · exact update_self ..
  have hq : q ≠ p := by
    grind [h.item_of_place]
  rw [update_of_ne hq]
  exact hrows c q hc'

end Shelf
end Lib
