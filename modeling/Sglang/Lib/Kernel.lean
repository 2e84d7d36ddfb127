import Mathlib.Tactic

/-!
# Data-parallel kernels

A kernel is launched on a grid: one program for each index, in an order nobody controls, all of them
writing to one memory.  A program writes with masked vector stores.

The rule for such a launch is `Writes.launch`: when every program writes only where it should, and
always the value a common function gives for the address, the memory afterwards is that function
wherever some program wrote, whatever the order and whatever the memory held before.
-/

namespace Lib

variable {α : Type}

/-- A masked vector store: every lane whose mask is set writes its value at its address. -/
def storeLanes (lanes : List Nat) (mask : Nat → Bool) (addr : Nat → Nat) (val : Nat → α)
    (m : Nat → α) : Nat → α :=
  lanes.foldl (fun m i => if mask i then fun a => if a = addr i then val i else m a else m) m

/-- Run the programs of a grid in some order. -/
def launch (prog : Nat → (Nat → α) → Nat → α) (order : List Nat) (m : Nat → α) : Nat → α :=
  order.foldl (fun m pid => prog pid m) m

/-- The `n` addresses from `start` on. -/
def span (start n : Nat) : Set Nat := {a | ∃ k < n, a = start + k}

lemma span_union {start n m : Nat} : ∀ a, a ∈ span start n ∪ span (start + n) m ↔
    a ∈ span start (n + m) := by
  intro a
  constructor
  · rintro (⟨k, hk, rfl⟩ | ⟨k, hk, rfl⟩)
    · exact ⟨k, by omega, rfl⟩
    · exact ⟨n + k, by omega, Nat.add_assoc _ _ _⟩
  · rintro ⟨k, hk, rfl⟩
    by_cases h : k < n
    · exact .inl ⟨k, h, rfl⟩
    · exact .inr ⟨k - n, by omega, by omega⟩

/-- A program that writes `f` on `S` and nothing else. -/
structure Writes (p : (Nat → α) → Nat → α) (S : Set Nat) (f : Nat → α) : Prop where
  inside : ∀ m, ∀ a ∈ S, p m a = f a
  outside : ∀ m, ∀ a ∉ S, p m a = m a

namespace Writes
variable {p q : (Nat → α) → Nat → α} {S T : Set Nat} {f : Nat → α}

lemma nothing (f : Nat → α) : Writes (fun m : Nat → α => m) ∅ f :=
  ⟨fun _ _ h => absurd h (Set.notMem_empty _), fun _ _ _ => rfl⟩

lemma congr (h : Writes p S f) (hST : ∀ a, a ∈ S ↔ a ∈ T) : Writes p T f :=
  (Set.ext hST : S = T) ▸ h

lemma comp (hp : Writes p S f) (hq : Writes q T f) : Writes (fun m => q (p m)) (S ∪ T) f := by
  refine ⟨fun m a ha => ?_, fun m a ha => ?_⟩
  · grind [hq.inside, hq.outside, hp.inside]
  · simp_all [hq.outside, hp.outside]

lemma foldl {ι : Type} {prog : ι → (Nat → α) → Nat → α} {S : ι → Set Nat} :
    ∀ {l : List ι}, (∀ i ∈ l, Writes (prog i) (S i) f) →
      Writes (fun m => l.foldl (fun m i => prog i m) m) {a | ∃ i ∈ l, a ∈ S i} f
  | [], _ => (nothing f).congr fun a => by simp
  | i :: l, h => by
    have hrest := foldl fun i' hi' => h i' (List.mem_cons_of_mem i hi')
    refine ((h i List.mem_cons_self).comp hrest).congr fun a => ?_
    simp [Set.mem_union]

/-- A masked store whose lanes agree with `f`. -/
lemma storeLanes {lanes : List Nat} {mask : Nat → Bool} {addr : Nat → Nat} {val : Nat → α}
    (h : ∀ i ∈ lanes, mask i = true → val i = f (addr i)) :
    Writes (storeLanes lanes mask addr val) {a | ∃ i ∈ lanes, mask i = true ∧ addr i = a} f := by
  have hlane : ∀ i ∈ lanes, Writes (fun m : Nat → α => if mask i then
      fun a => if a = addr i then val i else m a else m) {a | mask i = true ∧ addr i = a} f := by
    intro i hi
    refine ⟨fun m a ha => ?_, fun m a ha => ?_⟩
    · simp_all
    · by_cases hm : mask i = true
      · rw [if_pos hm, if_neg fun he => ha ⟨hm, he.symm⟩]
      · rw [if_neg hm]
  exact foldl hlane

/-- A vector store to consecutive addresses, its first `n` lanes unmasked. -/
lemma storeSpan {lanes start n : Nat} {v : Nat → α} (hn : n ≤ lanes)
    (h : ∀ k < n, v k = f (start + k)) :
    Writes (Lib.storeLanes (List.range lanes) (fun i => decide (i < n)) (start + ·) v)
      (span start n) f := by
  refine (storeLanes fun i _ hi => h i (of_decide_eq_true hi)).congr fun a => ?_
  constructor
  · rintro ⟨i, -, hi, rfl⟩
    exact ⟨i, of_decide_eq_true hi, rfl⟩
  · rintro ⟨k, hk, rfl⟩
    exact ⟨k, List.mem_range.2 (lt_of_lt_of_le hk hn), decide_eq_true hk, rfl⟩

lemma storeBlocks {block blocks start n : Nat} {v : Nat → α} (hblock : 0 < block)
    (hn : n ≤ blocks * block) (h : ∀ k < n, v k = f (start + k)) :
    Writes (fun m => (List.range blocks).foldl (fun m b =>
        Lib.storeLanes (List.range block) (fun i => decide (b * block + i < n))
          (fun i => start + (b * block + i)) (fun i => v (b * block + i)) m) m)
      (span start n) f := by
  refine (foldl fun b _ => storeLanes fun i _ hi => h _ (of_decide_eq_true hi)).congr fun a => ?_
  constructor
  · rintro ⟨b, -, i, -, hi, rfl⟩
    exact ⟨_, of_decide_eq_true hi, rfl⟩
  · rintro ⟨k, hk, rfl⟩
    have hdiv : k / block * block + k % block = k := Nat.div_add_mod' k block
    refine ⟨k / block, List.mem_range.2 ?_, k % block, List.mem_range.2 (Nat.mod_lt k hblock),
      ?_, ?_⟩
    · rw [Nat.div_lt_iff_lt_mul hblock]
      omega
    · grind
    · rw [hdiv]

lemma launch {prog : Nat → (Nat → α) → Nat → α} {S : Nat → Set Nat} {order : List Nat}
    (h : ∀ pid ∈ order, Writes (prog pid) (S pid) f) :
    Writes (launch prog order) {a | ∃ pid ∈ order, a ∈ S pid} f :=
  foldl h

end Writes
end Lib
