import Mathlib.Tactic

/-!
# Shared buffers

Growing arrays that several owners may hold: an owner has the number of a buffer, and what one owner
writes the others read.  A buffer can be allocated, extended at its end and cut.

The invariants say that some list is an initial segment of a buffer.  An extension keeps initial
segments; a cut at the length of an initial segment leaves exactly that segment.
-/

namespace Lib
open Function

/-- Buffers with the numbers `0, ..., next - 1`. -/
structure Buffers (α : Type) where
  next : ℕ
  read : ℕ → List α

namespace Buffers
variable {α : Type} {b : Buffers α} {r r' n : ℕ} {l l' : List α}

def empty : Buffers α where
  next := 0
  read _ := []

/-- A new buffer; its number is `b.next`. -/
def alloc (b : Buffers α) (l : List α) : Buffers α where
  next := b.next + 1
  read := update b.read b.next l

def extend (b : Buffers α) (r : ℕ) (l : List α) : Buffers α :=
  { b with read := update b.read r (b.read r ++ l) }

def truncate (b : Buffers α) (r n : ℕ) : Buffers α :=
  { b with read := update b.read r ((b.read r).take n) }

@[simp] lemma read_alloc : (b.alloc l).read b.next = l := update_self ..

lemma read_alloc_of_lt (h : r < b.next) : (b.alloc l).read r = b.read r := update_of_ne h.ne _ _

@[simp] lemma read_extend : (b.extend r l).read r = b.read r ++ l := update_self ..

lemma read_extend_of_ne (h : r' ≠ r) : (b.extend r l).read r' = b.read r' := update_of_ne h _ _

@[simp] lemma read_truncate : (b.truncate r n).read r = (b.read r).take n := update_self ..

lemma read_truncate_of_ne (h : r' ≠ r) : (b.truncate r n).read r' = b.read r' :=
  update_of_ne h _ _

/-- Extending any buffer keeps the initial segments of all. -/
lemma isPrefix_extend (h : l' <+: b.read r') : l' <+: (b.extend r l).read r' := by
  grind [read_extend, read_extend_of_ne]

lemma isPrefix_alloc (hr : r < b.next) (h : l' <+: b.read r) : l' <+: (b.alloc l).read r := by
  rwa [read_alloc_of_lt hr]

/-- A cut at the length of an initial segment leaves the segment. -/
lemma read_truncate_of_isPrefix (h : l <+: b.read r) : (b.truncate r l.length).read r = l := by
  rw [read_truncate]
  exact (List.prefix_iff_eq_take.1 h).symm

end Buffers
end Lib
