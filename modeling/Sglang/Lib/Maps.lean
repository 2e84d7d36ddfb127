import Mathlib.Data.List.AList

/-!
# Finite maps with an unspecified iteration order

A hash map of a program is used in two ways: by key, and by iterating over it in an order that the
program may not rely on.  The first is an association list without repeated keys, `Map`; for the
second, `IterOrder` is a parameter that says in which order a collection is walked, of which only
that it visits every element once is known.
-/

namespace Lib
open List

/-- A finite map. -/
abbrev Map (α β : Type) := AList fun _ : α => β

/-- The order in which the elements of a hash collection are visited. -/
structure IterOrder where
  /-- The elements in the order of the visit. -/
  order : {α : Type} → List α → List α
  perm : ∀ {α : Type} (l : List α), (order l).Perm l

namespace IterOrder
variable {α : Type} (o : IterOrder)

@[simp] lemma mem_order {l : List α} {a : α} : a ∈ o.order l ↔ a ∈ l := (o.perm l).mem_iff

@[simp] lemma order_singleton (a : α) : o.order [a] = [a] := perm_singleton.1 (o.perm [a])

/-- The order in which the elements were added. -/
def inOrder : IterOrder := ⟨id, fun _ => .refl _⟩

end IterOrder

namespace Map
variable {α β : Type} [DecidableEq α] {m : Map α β}

/-- No key is bound. -/
def isEmpty (m : Map α β) : Bool := m.entries.isEmpty

lemma isEmpty_iff : m.isEmpty = true ↔ ∀ a, m.lookup a = none := by
  rw [isEmpty, List.isEmpty_iff]
  constructor
  · grind [AList.lookup_eq_none, AList.mem_keys, AList.keys]
  · intro h
    rw [eq_nil_iff_forall_not_mem]
    rintro ⟨a, b⟩ hmem
    refine AList.lookup_eq_none.1 (h a) ?_
    exact AList.mem_keys.2 (mem_map.2 ⟨_, hmem, rfl⟩)

lemma not_isEmpty_iff : m.isEmpty = false ↔ ∃ a, m.lookup a ≠ none := by
  rw [← Bool.not_eq_true, isEmpty_iff, not_forall]

lemma lookup_insert_ite (a b : α) (v : β) :
    (m.insert b v).lookup a = if a = b then some v else m.lookup a := by
  grind [AList.lookup_insert, AList.lookup_insert_ne]

lemma lookup_erase_ite (a b : α) : (m.erase b).lookup a = if a = b then none else m.lookup a := by
  grind [AList.lookup_erase, AList.lookup_erase_ne]

lemma mem_keys_iff {a : α} : a ∈ m.keys ↔ ∃ v, m.lookup a = some v := by
  rw [← AList.mem_keys, ← AList.lookup_isSome, Option.isSome_iff_exists]

lemma length_keys_insert {a : α} (h : ∃ v, m.lookup a = some v) (v : β) :
    (m.insert a v).keys.length = m.keys.length := by
  have hmem : a ∈ m.keys := mem_keys_iff.2 h
  have hpos : 0 < m.keys.length := length_pos_of_mem hmem
  rw [AList.keys_insert, length_cons, length_erase_of_mem hmem]
  omega

lemma length_keys_erase {a : α} (h : ∃ v, m.lookup a = some v) :
    (m.erase a).keys.length + 1 = m.keys.length := by
  have hmem : a ∈ m.keys := mem_keys_iff.2 h
  have hpos : 0 < m.keys.length := length_pos_of_mem hmem
  rw [AList.keys_erase, length_erase_of_mem hmem]
  omega

end Map
end Lib
