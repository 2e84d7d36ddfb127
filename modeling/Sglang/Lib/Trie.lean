import Mathlib.Tactic

/-!
# Edge-labelled trees

A tree in a heap is a set of nodes that know their parents, each hanging from an edge with a label.
`path n` is what is read on the way from the root to the end of the edge of `n`.  Two edges that
leave one node differ in their first letter, so a word is read in one way only: `enters_cases` is
the argument, an induction on the length of a path, and `endsOn_unique` is what the rest uses.

The last sections are the three ways such a tree changes: a leaf is added, an edge is split, a leaf
is removed.
-/

namespace Lib
open List Function Finset

universe u v w

variable {ι : Type u} {α : Type v} {β : Type w}

/-- A tree: its root, its other nodes, where each hangs, and its labels. -/
structure IsTrie (root : ι) (live : Finset ι) (parent : ι → ι) (label path : ι → List α) :
    Prop where
  root_not_mem : root ∉ live
  path_root : path root = []
  parent_mem : ∀ {n}, n ∈ live → parent n = root ∨ parent n ∈ live
  path_eq : ∀ {n}, n ∈ live → path n = path (parent n) ++ label n
  label_ne_nil : ∀ {n}, n ∈ live → label n ≠ []
  /-- Edges that leave one node differ in their first letter. -/
  unique : ∀ {n m}, n ∈ live → m ∈ live → parent n = parent m →
    (label n).head? = (label m).head? → n = m

/-- The word `p` goes along the edge of `n`, at least one letter. -/
def Enters (parent : ι → ι) (label path : ι → List α) (n : ι) (p : List α) : Prop :=
  path (parent n) ++ (label n).take 1 <+: p

/-- The word `p` ends on the edge of `n`. -/
def EndsOn (parent : ι → ι) (label path : ι → List α) (n : ι) (p : List α) : Prop :=
  Enters parent label path n p ∧ p <+: path n

namespace IsTrie
variable {root : ι} {live : Finset ι} {parent : ι → ι} {label path : ι → List α}

section
variable (h : IsTrie root live parent label path)
include h

variable {n : ι}

lemma label_pos (hn : n ∈ live) : 0 < (label n).length := length_pos_iff.2 (h.label_ne_nil hn)

lemma length_path (hn : n ∈ live) :
    (path n).length = (path (parent n)).length + (label n).length := by
  rw [h.path_eq hn, length_append]

lemma parent_lt (hn : n ∈ live) : (path (parent n)).length < (path n).length := by
  have := h.label_pos hn
  rw [h.length_path hn]
  omega

lemma mem_of_path_ne_nil (hn : n = root ∨ n ∈ live) (hne : path n ≠ []) : n ∈ live :=
  hn.resolve_left fun heq => hne (heq ▸ h.path_root)

lemma path_parent (hn : n ∈ live) : path (parent n) <+: path n := by
  simp [h.path_eq hn]

lemma enters_path (hn : n ∈ live) : Enters parent label path n (path n) := by
  grind [Enters, h.path_eq, prefix_append_right_inj]

variable {p : List α}

lemma length_lt_of_enters (hn : n ∈ live) (hp : Enters parent label path n p) :
    (path (parent n)).length < p.length := by
  grind [hp.length_le, h.label_pos]

lemma path_ne_nil (hn : n ∈ live) : path n ≠ [] :=
  ne_nil_of_length_pos (Nat.zero_lt_of_lt (h.parent_lt hn))

variable {m : ι}

section
variable (hn : n ∈ live)

include hn

/-- **A path that goes along an edge is that of its node, or of a node below.** -/
theorem enters_cases (hm : m ∈ live) (hent : Enters parent label path n (path m)) :
    n = m ∨ path n <+: path (parent m) := by
  -- By induction on the length of the path of `m`.
  induction hk : (path m).length using Nat.strongRecOn generalizing n m with
  | ind k ih =>
    subst hk
    have hltm := h.parent_lt hm
    have hltn := h.length_lt_of_enters hn hent
    have hpn : path (parent n) <+: path m := (prefix_append _ _).trans hent
    rcases Nat.lt_trichotomy (path (parent n)).length (path (parent m)).length with
      hlt | heq | hgt
    · -- The edge lies above `m`.
      have hp := h.mem_of_path_ne_nil (h.parent_mem hm)
        (ne_nil_of_length_pos (Nat.zero_lt_of_lt hlt))
      have hent' : Enters parent label path n (path (parent m)) := by
        refine prefix_of_prefix_length_le hent (h.path_parent hm) ?_
        rw [length_append, length_take]
        omega
      rcases ih _ hltm hn hp hent' rfl with rfl | hpre
      · exact .inr (prefix_refl _)
      · exact .inr (hpre.trans (h.path_parent hp))
    · -- Both edges leave the same node, with the same letter.
      have hpath : path (parent n) = path (parent m) :=
        (prefix_of_prefix_length_le hpn (h.path_parent hm) heq.le).eq_of_length heq
      have hparent : parent n = parent m := by
        rcases h.parent_mem hm with hroot | hp
        · grind [h.parent_mem, h.path_ne_nil, h.path_root]
        have hp' := h.mem_of_path_ne_nil (h.parent_mem hn) (hpath ▸ h.path_ne_nil hp)
        have hent' := h.enters_path hp'
        rw [hpath] at hent'
        refine (ih _ hltm hp' hp hent' rfl).resolve_right fun hpre => ?_
        have := hpre.length_le
        have := h.parent_lt hp
        omega
      refine .inl (h.unique hn hm hparent ?_)
      rw [Enters, hpath, h.path_eq hm, prefix_append_right_inj] at hent
      obtain ⟨a, l, hl⟩ := exists_cons_of_ne_nil (h.label_ne_nil hn)
      obtain ⟨b, l', hl'⟩ := exists_cons_of_ne_nil (h.label_ne_nil hm)
      rw [hl, hl'] at hent ⊢
      exact congrArg some (cons_prefix_cons.1 hent).1
    · -- The edge of `m` would lie above `n`, but the path of `m` is longer.
      have hp := h.mem_of_path_ne_nil (h.parent_mem hn)
        (ne_nil_of_length_pos (Nat.zero_lt_of_lt hgt))
      have hent' : Enters parent label path m (path (parent n)) := by
        refine prefix_of_prefix_length_le (h.enters_path hm) hpn ?_
        rw [length_append, length_take]
        omega
      have hle : (path m).length ≤ (path (parent n)).length := by
        rcases ih _ hltn hm hp hent' rfl with rfl | hpre
        · exact le_refl _
        · exact hpre.length_le.trans (h.parent_lt hp).le
      omega

lemma path_of_enters (hm : m ∈ live)
    (hent : Enters parent label path n (path m)) : path n <+: path m := by
  rcases h.enters_cases hn hm hent with rfl | hpre
  · exact prefix_refl _
  · exact hpre.trans (h.path_parent hm)

lemma enters_of_path (hp : path n <+: p) : Enters parent label path n p :=
  (h.enters_path hn).trans hp

lemma path_inj (hm : m ∈ live) (heq : path n = path m) : n = m := by
  refine (h.enters_cases hn hm (heq ▸ h.enters_path hn)).resolve_right fun hpre => ?_
  have hlen := hpre.length_le
  have := h.parent_lt hm
  rw [heq] at hlen
  omega

/-- A node is at or above another when its path is a beginning of the other's. -/
lemma path_prefix_iff (hm : m ∈ live) :
    path n <+: path m ↔ n = m ∨ path n <+: path (parent m) := by
  constructor
  · exact fun hpre => h.enters_cases hn hm (h.enters_of_path hn hpre)
  · rintro (rfl | hpre)
    · exact prefix_refl _
    · exact hpre.trans (h.path_parent hm)

lemma endsOn_unique (hm : m ∈ live) (hpn : EndsOn parent label path n p)
    (hpm : EndsOn parent label path m p) : n = m := by
  refine (h.enters_cases hn hm (hpn.1.trans hpm.2)).resolve_right fun hpre => ?_
  have hlen := (hpn.2.trans hpre).length_le
  have := h.length_lt_of_enters hm hpm.1
  omega

end

lemma exists_endsOn (hm : m ∈ live) (hne : p ≠ []) (hp : p <+: path m) :
    ∃ n ∈ live, EndsOn parent label path n p ∧ path n <+: path m := by
  induction hk : (path m).length using Nat.strongRecOn generalizing m with
  | ind k ih =>
    subst hk
    rcases Nat.lt_or_ge (path (parent m)).length p.length with hlt | hle
    · refine ⟨m, hm, ⟨?_, hp⟩, prefix_refl _⟩
      refine prefix_of_prefix_length_le (h.enters_path hm) hp ?_
      rw [length_append, length_take]
      omega
    · have hp' : p <+: path (parent m) := prefix_of_prefix_length_le hp (h.path_parent hm) hle
      have hmem := h.mem_of_path_ne_nil (h.parent_mem hm) fun hnil =>
        hne (prefix_nil.1 (hnil ▸ hp'))
      obtain ⟨n, hn, hend, hpre⟩ := ih _ (h.parent_lt hm) hmem hp' rfl
      exact ⟨n, hn, hend, hpre.trans (h.path_parent hm)⟩

/-- A word that leaves a node with a letter no edge has ends nowhere. -/
lemma not_endsOn_of_no_edge (hn : n = root ∨ n ∈ live) {a : α}
    (hno : ∀ c ∈ live, parent c = n → (label c).head? ≠ some a) (hp : path n ++ [a] <+: p)
    (hm : m ∈ live) : ¬ EndsOn parent label path m p := by
  intro hend
  obtain ⟨c, hc, ⟨hent, hle⟩, -⟩ := h.exists_endsOn hm (by simp) (hp.trans hend.2)
  have hlt := h.length_lt_of_enters hc hent
  rw [length_append, length_singleton] at hlt
  have hup : path (parent c) <+: path n := prefix_of_prefix_length_le
    ((prefix_append _ _).trans hent) (prefix_append _ _) (by omega)
  rcases Nat.eq_or_lt_of_le hup.length_le with heq | hshort
  · have hpath := hup.eq_of_length heq
    have hparent : parent c = n := by
      rcases hn with rfl | hn
      · grind [h.parent_mem, h.path_ne_nil, h.path_root]
      · exact h.path_inj (h.mem_of_path_ne_nil (h.parent_mem hc)
          (hpath ▸ h.path_ne_nil hn)) hn hpath
    obtain ⟨b, l, hl⟩ := exists_cons_of_ne_nil (h.label_ne_nil hc)
    rw [Enters, hpath, prefix_append_right_inj, hl] at hent
    refine hno c hc hparent ?_
    rw [hl]
    exact congrArg some (cons_prefix_cons.1 hent).1
  · have hmem := h.mem_of_path_ne_nil hn (ne_nil_of_length_pos (Nat.zero_lt_of_lt hshort))
    have hent' : Enters parent label path c (path n) := by
      refine prefix_of_prefix_length_le hent (prefix_append _ _) ?_
      rw [length_append, length_take]
      omega
    have hlen := (hle.trans (h.path_of_enters hc hmem hent')).length_le
    rw [length_append, length_singleton] at hlen
    omega

/-- A word that goes along an edge and leaves it in the middle ends nowhere. -/
lemma not_endsOn_of_diverges {c : ι} (hc : c ∈ live) (hent : Enters parent label path c p)
    (hoff : ¬ p <+: path c) (hon : ¬ path c <+: p) (hm : m ∈ live) :
    ¬ EndsOn parent label path m p := by
  intro hend
  rcases h.enters_cases hc hm (hent.trans hend.2) with rfl | hpre
  · exact hoff hend.2
  · exact hon (hpre.trans ((prefix_append _ _).trans hend.1))

end
end IsTrie

/-- **What a tree with a value at each letter represents**: the word that ends at a letter has the
value there. -/
def Maps (live : Finset ι) (parent : ι → ι) (label path : ι → List α) (vals : ι → List β)
    (p : List α) (v : β) : Prop :=
  ∃ n ∈ live, ∃ j, j < (label n).length ∧ p = path (parent n) ++ (label n).take (j + 1) ∧
    (vals n)[j]? = some v

namespace IsTrie
variable {root : ι} {live : Finset ι} {parent : ι → ι} {label path : ι → List α}
  {vals : ι → List β} {p : List α}

section
variable (h : IsTrie root live parent label path)
include h

lemma endsOn_iff {n : ι} (hn : n ∈ live) : EndsOn parent label path n p ↔
    ∃ j, j < (label n).length ∧ p = path (parent n) ++ (label n).take (j + 1) := by
  constructor
  · rintro ⟨hent, hp⟩
    have hlt := h.length_lt_of_enters hn hent
    have hle := hp.length_le
    rw [h.length_path hn] at hle
    refine ⟨p.length - (path (parent n)).length - 1, by omega, ?_⟩
    rw [h.path_eq hn] at hp
    rw [prefix_iff_eq_take.1 hp, length_take, length_append, take_append,
      take_of_length_le (by omega)]
    congr 2
    omega
  · rintro ⟨j, hj, rfl⟩
    refine ⟨(prefix_append_right_inj _).2 ?_, ?_⟩
    · exact take_prefix_take_left (by omega)
    · grind [h.path_eq, prefix_append_right_inj]

variable {v : β}

/-- The value of a word on the edge of `n`. -/
lemma maps_iff {n : ι} (hn : n ∈ live) {j : Nat} (hj : j < (label n).length) :
    Maps live parent label path vals (path (parent n) ++ (label n).take (j + 1)) v ↔
      (vals n)[j]? = some v := by
  constructor
  · rintro ⟨m, hm, i, hi, heq, hv⟩
    have hend := (h.endsOn_iff hn).2 ⟨j, hj, rfl⟩
    obtain rfl := h.endsOn_unique hn hm hend ((h.endsOn_iff hm).2 ⟨i, hi, heq⟩)
    have hlen := congrArg List.length heq
    simp only [length_append, length_take] at hlen
    rwa [show j = i by omega]
  · exact fun hv => ⟨n, hn, j, hj, rfl, hv⟩

lemma maps_unique {v' : β} (hv : Maps live parent label path vals p v)
    (hv' : Maps live parent label path vals p v') : v = v' := by
  obtain ⟨n, hn, j, hj, rfl, hv⟩ := hv
  rw [h.maps_iff hn hj] at hv'
  exact Option.some_inj.1 (hv.symm.trans hv')

lemma endsOn_of_maps (hv : Maps live parent label path vals p v) :
    ∃ n ∈ live, EndsOn parent label path n p := by
  obtain ⟨n, hn, j, hj, heq, -⟩ := hv
  exact ⟨n, hn, (h.endsOn_iff hn).2 ⟨j, hj, heq⟩⟩

end

/-! ## A new leaf -/

section
variable [DecidableEq ι]

section
variable {n u : ι} {l : List α} {vs : List β}

lemma addLeaf (h : IsTrie root live parent label path) (hn : n ∉ live) (hroot : n ≠ root)
    (hu : u = root ∨ u ∈ live) (hl : l ≠ [])
    (hnew : ∀ m ∈ live, parent m = u → (label m).head? ≠ l.head?) :
    IsTrie root (insert n live) (update parent n u) (update label n l)
      (update path n (path u ++ l)) := by
  have hne : ∀ {m}, m ∈ live → m ≠ n := fun hm heq => hn (heq ▸ hm)
  have hpn : ∀ {m}, m ∈ live → parent m ≠ n := fun hm =>
    (h.parent_mem hm).elim (fun heq => heq ▸ hroot.symm) hne
  constructor
  · exact fun hmem => (mem_insert.1 hmem).elim (hroot ·.symm) h.root_not_mem
  · rw [update_of_ne hroot.symm, h.path_root]
  · grind [h.parent_mem]
  · intro m hm
    rcases mem_insert.1 hm with rfl | hm
    · grind
    · simp [update_of_ne (hne hm), update_of_ne (hpn hm), h.path_eq hm]
  · grind [h.label_ne_nil]
  · grind [h.unique]

lemma maps_addLeaf (h : IsTrie root live parent label path) (hn : n ∉ live) (hroot : n ≠ root)
    (hu : u = root ∨ u ∈ live) {v : β} :
    Maps (insert n live) (update parent n u) (update label n l)
        (update path n (path u ++ l)) (update vals n vs) p v ↔
      Maps live parent label path vals p v ∨
        ∃ j, j < l.length ∧ p = path u ++ l.take (j + 1) ∧ vs[j]? = some v := by
  have hne : ∀ {m}, m ∈ live → m ≠ n := fun hm heq => hn (heq ▸ hm)
  have hun : u ≠ n := hu.elim (fun heq => heq ▸ hroot.symm) hne
  have hpn : ∀ {m}, m ∈ live → parent m ≠ n := fun hm =>
    (h.parent_mem hm).elim (fun heq => heq ▸ hroot.symm) hne
  constructor
  · rintro ⟨m, hm, j, hj, heq, hv⟩
    rcases mem_insert.1 hm with rfl | hm
    · grind
    rw [update_of_ne (hne hm)] at hj hv
    rw [update_of_ne (hne hm), update_of_ne (hne hm), update_of_ne (hpn hm)] at heq
    exact .inl ⟨m, hm, j, hj, heq, hv⟩
  · rintro (⟨m, hm, j, hj, heq, hv⟩ | ⟨j, hj, heq, hv⟩)
    · refine ⟨m, Finset.mem_insert_of_mem hm, j, ?_, ?_, ?_⟩
      · rwa [update_of_ne (hne hm)]
      · grind
      · rwa [update_of_ne (hne hm)]
    · refine ⟨n, Finset.mem_insert_self n live, j, ?_, ?_, ?_⟩
      · rwa [update_self]
      · rw [update_self, update_self, update_of_ne hun, heq]
      · rwa [update_self]

end

/-! ## A split edge -/

section
variable {n c : ι} {k : Nat}

/-- The upper part of the edge of `c` gets the node `n`. -/
lemma split (h : IsTrie root live parent label path) (hn : n ∉ live) (hroot : n ≠ root)
    (hc : c ∈ live) (hk : 0 < k) (hkl : k < (label c).length) :
    IsTrie root (insert n live) (update (update parent n (parent c)) c n)
      (update (update label n ((label c).take k)) c ((label c).drop k))
      (update path n (path (parent c) ++ (label c).take k)) := by
  have hne : ∀ {m}, m ∈ live → m ≠ n := fun hm heq => hn (heq ▸ hm)
  have hpn : ∀ {m}, m ∈ live → parent m ≠ n := fun hm =>
    (h.parent_mem hm).elim (fun heq => heq ▸ hroot.symm) hne
  have hhead : ((label c).take k).head? = (label c).head? := by
    rw [head?_take, if_neg (Nat.ne_of_gt hk)]
  constructor
  · exact fun hmem => (mem_insert.1 hmem).elim (hroot ·.symm) h.root_not_mem
  · rw [update_of_ne hroot.symm, h.path_root]
  · grind [h.parent_mem]
  · intro m hm
    rcases mem_insert.1 hm with rfl | hm
    · grind
    by_cases hmc : m = c
    · subst hmc
      rw [update_self, update_self, update_self,
        update_of_ne (hne hm), h.path_eq hm, append_assoc, take_append_drop]
    · simp [update_of_ne hmc, update_of_ne (hne hm), update_of_ne (hpn hm), h.path_eq hm]
  · intro m hm
    rcases mem_insert.1 hm with rfl | hm
    · grind [length_take]
    · grind [length_drop, h.label_ne_nil]
  · -- The node `n` stands where `c` stood, and `c` alone hangs from it.
    have hcase : ∀ {m}, m ∈ insert n live → (m = c ∧
          update (update parent n (parent c)) c n m = n) ∨
        ∃ m' ∈ live, (m = n ∧ m' = c ∨ m = m' ∧ m ≠ c) ∧
          update (update parent n (parent c)) c n m = parent m' ∧
          (update (update label n ((label c).take k)) c
            ((label c).drop k) m).head? = (label m').head? := by
      intro m hm
      rcases mem_insert.1 hm with rfl | hm
      · grind
      · grind
    intro m1 m2 hm1 hm2 hp hl
    rcases hcase hm1 with ⟨rfl, hp1⟩ | ⟨m1', hm1', hcase1, hp1, hl1⟩ <;>
      rcases hcase hm2 with ⟨rfl, hp2⟩ | ⟨m2', hm2', hcase2, hp2, hl2⟩
    · rfl
    · exact absurd (hp2.symm.trans (hp.symm.trans hp1)) (hpn hm2')
    · exact absurd (hp1.symm.trans (hp.trans hp2)) (hpn hm1')
    · grind [h.unique]

lemma maps_split (h : IsTrie root live parent label path) (hn : n ∉ live) (hroot : n ≠ root)
    (hc : c ∈ live) (hkl : k < (label c).length) {v : β} :
    Maps (insert n live) (update (update parent n (parent c)) c n)
        (update (update label n ((label c).take k)) c ((label c).drop k))
        (update path n (path (parent c) ++ (label c).take k))
        (update (update vals n ((vals c).take k)) c ((vals c).drop k)) p v ↔
      Maps live parent label path vals p v := by
  have hne : ∀ {m}, m ∈ live → m ≠ n := fun hm heq => hn (heq ▸ hm)
  have hpn : ∀ {m}, m ∈ live → parent m ≠ n := fun hm =>
    (h.parent_mem hm).elim (fun heq => heq ▸ hroot.symm) hne
  constructor
  · rintro ⟨m, hm, j, hj, heq, hv⟩
    rcases mem_insert.1 hm with rfl | hm
    · rw [update_of_ne (hne hc).symm, update_self] at hj hv
      rw [update_of_ne (hne hc).symm, update_of_ne (hne hc).symm,
        update_self, update_self, update_of_ne (hpn hc), take_take] at heq
      rw [length_take] at hj
      rw [getElem?_take_of_lt (by omega)] at hv
      exact ⟨c, hc, j, by omega, by rwa [min_eq_left (by omega)] at heq, hv⟩
    · by_cases hmc : m = c
      · subst hmc
        rw [update_self] at hj hv
        rw [update_self, update_self, update_self, append_assoc, ← take_add] at heq
        rw [length_drop] at hj
        rw [getElem?_drop] at hv
        exact ⟨m, hm, k + j, by omega, heq, hv⟩
      · rw [update_of_ne hmc, update_of_ne (hne hm)] at hj hv
        rw [update_of_ne hmc, update_of_ne hmc, update_of_ne (hne hm),
          update_of_ne (hne hm), update_of_ne (hpn hm)] at heq
        exact ⟨m, hm, j, hj, heq, hv⟩
  · rintro ⟨m, hm, j, hj, heq, hv⟩
    by_cases hmc : m = c
    · subst hmc
      rcases Nat.lt_or_ge j k with hjk | hjk
      · refine ⟨n, Finset.mem_insert_self n live, j, ?_, ?_, ?_⟩
        · grind
        · grind
        · grind
      · refine ⟨m, Finset.mem_insert_of_mem hm, j - k, ?_, ?_, ?_⟩
        · grind
        · rw [update_self, update_self, update_self, append_assoc, ← take_add, heq]
          congr 2
          omega
        · rw [update_self, getElem?_drop, Nat.add_sub_cancel' hjk, hv]
    · refine ⟨m, Finset.mem_insert_of_mem hm, j, ?_, ?_, ?_⟩
      · rwa [update_of_ne hmc, update_of_ne (hne hm)]
      · grind
      · rwa [update_of_ne hmc, update_of_ne (hne hm)]

omit [DecidableEq ι] in
lemma split_prefix_iff (h : IsTrie root live parent label path) (hc : c ∈ live) (hk : 0 < k)
    {m : ι} (hm : m ∈ live) :
    path (parent c) ++ (label c).take k <+: path m ↔ path c <+: path m := by
  constructor
  · refine fun hpre => h.path_of_enters hc hm (List.IsPrefix.trans ?_ hpre)
    exact (prefix_append_right_inj _).2 (take_prefix_take_left (by omega))
  · refine fun hpre => List.IsPrefix.trans ?_ hpre
    rw [h.path_eq hc]
    exact (prefix_append_right_inj _).2 ( take_prefix _ _)

end

/-! ## A removed leaf -/

section
variable {n : ι}

lemma removeLeaf (h : IsTrie root live parent label path)
    (hleaf : ∀ m ∈ live, parent m ≠ n) :
    IsTrie root (live.erase n) parent label path where
  root_not_mem hmem := h.root_not_mem (Finset.mem_of_mem_erase hmem)
  path_root := h.path_root
  parent_mem hm := (h.parent_mem (Finset.mem_of_mem_erase hm)).imp_right fun hp =>
    mem_erase.2 ⟨hleaf _ (Finset.mem_of_mem_erase hm), hp⟩
  path_eq hm := h.path_eq (Finset.mem_of_mem_erase hm)
  label_ne_nil hm := h.label_ne_nil (Finset.mem_of_mem_erase hm)
  unique hm hm' := h.unique (Finset.mem_of_mem_erase hm) (Finset.mem_of_mem_erase hm')

end
end

/-! ## The way up -/

section
variable [DecidableEq α]

/-- How many nodes are at or above `n`. -/
def depth (live : Finset ι) (path : ι → List α) (n : ι) : Nat :=
  (live.filter fun m => path m <+: path n).card

lemma depth_le (n : ι) : depth live path n ≤ live.card := card_filter_le _ _

lemma depth_parent_lt (h : IsTrie root live parent label path) {n : ι} (hn : n ∈ live) :
    depth live path (parent n) < depth live path n := by
  refine card_lt_card (ssubset_iff_of_subset ?_ |>.2 ⟨n, ?_, ?_⟩)
  · exact fun m hm => Finset.mem_filter.2 ⟨(Finset.mem_filter.1 hm).1,
      (Finset.mem_filter.1 hm).2.trans (h.path_parent hn)⟩
  · exact Finset.mem_filter.2 ⟨hn, prefix_refl _⟩
  · intro hmem
    have := (Finset.mem_filter.1 hmem).2.length_le
    have := h.parent_lt hn
    omega

end
end IsTrie
end Lib
