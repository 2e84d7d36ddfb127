import Sglang.Router.Shape

/-!
# What a removal takes away

The operations of a shard that take something away are a removal of blocks (`remove`), which walks
the nodes of the reverse index, and a removal of a worker (`clearWorker`), which walks all nodes;
both end in cascades of prunes.  `Cut e s s'` describes what any of them does: the nodes that are
left are nodes of `s`, with the carriers the effect `e` leaves them, and no node with a carrier left
is lost.  `remove_spec` and `clearWorker_spec` give the effect of each, and with it that the shard
stays `Shaped` and `Tidy`.
-/

namespace Sglang.Router.TreeState
open Lib List Option

variable {s s' s'' : TreeState}

/-- What becomes, at a node, of the entry of a worker. -/
abbrev Effect := NodeId → KvWorkerId → Option Tiers → Option Tiers

/-- `s'` is what is left of `s` after its carriers went through `e` and some nodes without a carrier
were pruned. -/
structure Cut (e : Effect) (s s' : TreeState) : Prop where
  node : ∀ {id n'}, s'.node id = some n' → ∃ n, s.node id = some n ∧
    n'.blockHash = n.blockHash ∧ n'.parent = n.parent ∧
    ∀ w, n'.workers.lookup w = e id w (n.workers.lookup w)
  kept : ∀ {id n w t}, s.node id = some n → e id w (n.workers.lookup w) = some t →
    ∃ n', s'.node id = some n'

/-- Nothing is taken. -/
def keep : Effect := fun _ _ held => held

lemma Cut.refl (s : TreeState) : Cut keep s s :=
  ⟨fun hn => ⟨_, hn, rfl, rfl, fun _ => rfl⟩, fun hn _ => ⟨_, hn⟩⟩

/-- Two cuts, one after the other; the second must not bring back what the first has taken. -/
lemma Cut.trans {e e' : Effect} (h : Cut e s s') (h' : Cut e' s' s'')
    (hnone : ∀ id w, e' id w none = none) :
    Cut (fun id w held => e' id w (e id w held)) s s'' where
  node hn := by
    obtain ⟨n', hn', hhash', hpar', hw'⟩ := h'.node hn
    obtain ⟨n, hn, hhash, hpar, hw⟩ := h.node hn'
    exact ⟨n, hn, hhash'.trans hhash, hpar'.trans hpar, fun w => by rw [hw', hw]⟩
  kept {id n w t} hn ht := by
    obtain ⟨u, hu⟩ : ∃ u, e id w (n.workers.lookup w) = some u := by
      refine ne_none_iff_exists'.1 fun hnil => ?_
      rw [hnil, hnone] at ht
      cases ht
    obtain ⟨n', hn'⟩ := h.kept hn hu
    obtain ⟨m, hm, -, -, hw⟩ := h.node hn'
    rw [hn, some_inj] at hm
    subst hm
    exact h'.kept hn' (by rw [hw, ht])

/-- Only the nodes of `rest` may be left with neither a carrier nor a child. -/
def Tidy (s : TreeState) (rest : List NodeId) : Prop :=
  ∀ id n, s.node id = some n → id ≠ rootId → n.prunable = true → id ∈ rest

lemma tidy_new : new.Tidy [] := by
  intro id n hn hne
  rw [node_new, if_neg hne] at hn
  cases hn

variable {id : NodeId} {rest : List NodeId}

lemma Tidy.tail (ht : s.Tidy (id :: rest))
    (h : ∀ n, s.node id = some n → id ≠ rootId → n.prunable = false) : s.Tidy rest := by
  intro i n hn hne hpr
  refine (mem_cons.1 (ht _ _ hn hne hpr)).resolve_left ?_
  rintro rfl
  rw [h n hn hne] at hpr
  cases hpr

/-! ## The cascade of prunes -/

variable {c p : NodeId} {n pn : Node}

/-- Pruning a node without carriers takes nothing away from any worker. -/
lemma cut_detach (hc : s.node c = some n) (hp : s.node p = some pn) (hcp : p ≠ c)
    (hempty : n.workers.isEmpty = true) : Cut keep s (s.detach c p n.blockHash) := by
  have d := detached_detach hp hcp n.blockHash
  refine ⟨fun hi => ?_, fun {i m w t} hm ht => ?_⟩
  · obtain ⟨-, ⟨rfl, rfl⟩ | hm⟩ := d.cases hi
    · exact ⟨pn, hp, rfl, rfl, fun _ => rfl⟩
    · exact ⟨_, hm, rfl, rfl, fun _ => rfl⟩
  · have hic : i ≠ c := by
      rintro rfl
      rw [hc, some_inj] at hm
      rw [← hm, Map.isEmpty_iff.1 hempty] at ht
      cases ht
    obtain ⟨m', hm', -⟩ := d.old hp hm hic
    exact ⟨m', hm'⟩

/-- Once a node is pruned its parent may be the next one to go. -/
lemma tidy_detach {hash : Int64} (hp : s.node p = some pn) (hcp : p ≠ c)
    (ht : s.Tidy (c :: rest)) : (s.detach c p hash).Tidy (p :: rest) := by
  intro i n hi hne hpr
  have d := detached_detach hp hcp hash
  obtain ⟨hic, ⟨rfl, -⟩ | hn⟩ := d.cases hi
  · exact mem_cons_self
  · exact mem_cons_of_mem _ ((mem_cons.1 (ht _ _ hn hne hpr)).resolve_left hic)

/-- Each prune makes the shard smaller, which is why the fuel of the cascade suffices. -/
lemma length_keys_detach (hc : s.node c = some n) (hp : s.node p = some pn) (hcp : p ≠ c)
    (hash : Int64) : (s.detach c p hash).nodes.keys.length + 1 = s.nodes.keys.length := by
  have hmem : ∃ v, (s.nodes.insert p { pn with children := pn.children.erase hash }).lookup c =
      some v := ⟨n, by rw [Map.lookup_insert_ite, if_neg hcp.symm]; exact hc⟩
  rw [detach, hp]
  exact (Map.length_keys_erase hmem).trans (Map.length_keys_insert ⟨pn, hp⟩ _)

/-- **A cascade** from a node that may be empty leaves a tidy shard, and takes no carrier. -/
theorem pruneCascadeLoop_spec : ∀ {fuel} {s : TreeState} {cursor : NodeId}
    {rest : List NodeId}, s.Shaped → s.nodes.keys.length ≤ fuel → s.Tidy (cursor :: rest) →
    (pruneCascadeLoop fuel s cursor).Shaped ∧ Cut keep s (pruneCascadeLoop fuel s cursor) ∧
      (pruneCascadeLoop fuel s cursor).Tidy rest
  | 0, s, cursor, rest, h, hfuel, _ => by
    obtain ⟨r, hr, -⟩ := h.root
    have hpos := length_pos_of_mem (Map.mem_keys_iff.2 ⟨r, hr⟩)
    omega
  | fuel + 1, s, cursor, rest, h, hfuel, ht => by
    rw [pruneCascadeLoop]
    split
    · next hroot => exact ⟨h, .refl s, ht.tail fun _ _ hne => absurd hroot hne⟩
    next hroot =>
    cases hn : s.node cursor with
    | none =>
      exact ⟨h, .refl s, ht.tail fun n hn' _ => by cases hn.symm.trans hn'⟩
    | some n =>
      obtain ⟨p, pn, hpar, hlt, hp, -⟩ := h.up hn hroot
      simp only [hpar]
      split
      · next hpr =>
        rw [Node.prunable, Bool.and_eq_true] at hpr
        have h1 := h.detach hn hpar hp hpr.2
        have hcut := cut_detach hn hp hlt.ne hpr.1
        have htidy : (s.detach cursor p n.blockHash).Tidy (p :: rest) := tidy_detach hp hlt.ne ht
        split
        · have hlen := length_keys_detach hn hp hlt.ne n.blockHash
          obtain ⟨h2, hcut', htidy'⟩ := pruneCascadeLoop_spec h1
            (show _ ≤ fuel by omega) htidy
          exact ⟨h2, hcut.trans hcut' fun _ _ => rfl, htidy'⟩
        · next hstop =>
          refine ⟨h1, hcut, htidy.tail fun m hm hne => ?_⟩
          rw [hm, any_some, not_and, Bool.not_eq_true] at hstop
          exact hstop hne
      · next hpr =>
        refine ⟨h, .refl s, ht.tail fun m hm _ => ?_⟩
        rw [hn, some_inj] at hm
        exact hm ▸ Bool.not_eq_true _ ▸ hpr

/-- A cascade goes up as long as it finds nodes with neither a carrier nor a child, and leaves none
on its way. -/
lemma pruneCascade_spec (h : s.Shaped) (ht : s.Tidy (id :: rest)) :
    (s.pruneCascade id).Shaped ∧ Cut keep s (s.pruneCascade id) ∧ (s.pruneCascade id).Tidy rest :=
  pruneCascadeLoop_spec h le_rfl ht

/-! ## Writing back fewer carriers -/

variable {workers : Map KvWorkerId Tiers}

lemma cut_setWorkers {e : Effect} (hn : s.node id = some n)
    (hid : ∀ w, workers.lookup w = e id w (n.workers.lookup w))
    (hother : ∀ i w held, i ≠ id → e i w held = held) : Cut e s (s.setWorkers id n workers) := by
  refine ⟨fun {i m'} hm' => ?_, fun {i m w t} hm _ => ?_⟩
  · rw [node_setWorkers] at hm'
    split at hm'
    · grind
    · next hi => exact ⟨m', hm', rfl, rfl, fun w => (hother i w _ hi).symm⟩
  · obtain ⟨m', hm', -⟩ := setWorkers_of_exists workers hn hm
    exact ⟨m', hm'⟩

lemma tidy_setWorkers (ht : s.Tidy rest) : (s.setWorkers id n workers).Tidy (id :: rest) := by
  intro i m hm hne hpr
  rw [node_setWorkers] at hm
  split at hm
  · next hi => exact hi ▸ mem_cons_self
  · exact mem_cons_of_mem _ (ht _ _ hm hne hpr)

/-- The node written back is empty only if it was seen to be. -/
lemma tidy_setWorkers_of (ht : s.Tidy rest)
    (h : (workers.isEmpty && n.children.isEmpty) = false) :
    (s.setWorkers id n workers).Tidy rest := by
  refine (tidy_setWorkers ht).tail fun m hm _ => ?_
  rw [node_setWorkers, if_pos rfl, some_inj] at hm
  subst hm
  exact h

/-! ## Removing blocks -/

variable (worker : KvWorkerId)

/-- `worker` loses `tiers` at the nodes of `ids`. -/
def dropOn (tiers : Tiers) (ids : List NodeId) : Effect :=
  fun id w held =>
    if id ∈ ids ∧ w = worker then held.bind fun t => (t.difference tiers).entry else held

lemma dropOn_none (tiers : Tiers) (ids : List NodeId) (id : NodeId)
    (w : KvWorkerId) : dropOn worker tiers ids id w none = none := by
  rw [dropOn, bind_none, ite_self]

lemma lookup_dropTiers (carriers : Map KvWorkerId Tiers) (worker w : KvWorkerId)
    (tiers : Tiers) : (dropTiers carriers worker tiers).lookup w =
      if w = worker then (carriers.lookup w).bind fun t => (t.difference tiers).entry
      else carriers.lookup w := by
  rw [dropTiers]
  cases hl : carriers.lookup worker with
  | none =>
    grind
  | some held =>
    by_cases he : (held.difference tiers).isEmpty = true
    · grind [Map.lookup_erase_ite, Tiers.entry_eq_none.2]
    · grind [Map.lookup_insert_ite, Tiers.entry_of_ne]

/-- Clearing the same tiers twice is clearing them once. -/
lemma bind_entry_difference (held : Option Tiers) (tiers : Tiers) :
    ((held.bind fun t => (t.difference tiers).entry).bind fun t => (t.difference tiers).entry) =
      held.bind fun t => (t.difference tiers).entry := by
  cases held with
  | none => rfl
  | some t =>
    rw [bind_some]
    by_cases he : (t.difference tiers).isEmpty = true
    · rw [Tiers.entry_eq_none.2 he, bind_none]
    · grind [Tiers.entry_of_ne, Tiers.difference_difference]

/-- Removing from several nodes is removing from one after the other. -/
lemma dropOn_cons (tiers : Tiers) (id : NodeId) (ids : List NodeId) :
    (fun i w held => dropOn worker tiers ids i w (dropOn worker tiers [id] i w held)) =
      dropOn worker tiers (id :: ids) := by
  funext i w held
  simp only [dropOn, mem_cons, not_mem_nil, or_false]
  by_cases hw : w = worker
  · by_cases hi : i = id
    · simp_all [bind_entry_difference]
    · simp only [hw, hi, false_and, if_false, false_or]
  · simp only [hw, and_false, if_false]

/-- Removing tiers of a worker at one node, with the cascade that follows. -/
lemma removeTarget_spec (tiers : Tiers) (h : s.Shaped) (ht : s.Tidy [])
    (id : NodeId) :
    (removeTarget worker tiers s id).Shaped ∧
      Cut (dropOn worker tiers [id]) s (removeTarget worker tiers s id) ∧
      (removeTarget worker tiers s id).Tidy [] := by
  rw [removeTarget]
  cases hn : s.node id with
  | none =>
    refine ⟨h, ⟨fun {i m} hm => ⟨m, hm, rfl, rfl, fun w => ?_⟩, fun hm _ => ⟨_, hm⟩⟩, ht⟩
    rw [dropOn, if_neg]
    rintro ⟨hi, -⟩
    rw [mem_singleton.1 hi, hn] at hm
    cases hm
  | some n =>
    have h1 := h.setWorkers hn (dropTiers n.workers worker tiers)
    have hcut : Cut (dropOn worker tiers [id]) s
        (s.setWorkers id n (dropTiers n.workers worker tiers)) := by
      refine cut_setWorkers hn (fun w => ?_) fun i w held hi => ?_
      · simp only [lookup_dropTiers, dropOn, mem_singleton, true_and]
      · exact if_neg fun hmem => hi (mem_singleton.1 hmem.1)
    dsimp only
    split
    · obtain ⟨h2, hcut', ht'⟩ := pruneCascade_spec h1 (tidy_setWorkers ht)
      exact ⟨h2, hcut.trans hcut' fun _ _ => rfl, ht'⟩
    · grind [tidy_setWorkers_of]

lemma foldl_removeTarget_spec (worker : KvWorkerId) (tiers : Tiers) :
    ∀ (ids : List NodeId) {s : TreeState}, s.Shaped → s.Tidy [] →
    (ids.foldl (removeTarget worker tiers) s).Shaped ∧
      Cut (dropOn worker tiers ids) s (ids.foldl (removeTarget worker tiers) s) ∧
      (ids.foldl (removeTarget worker tiers) s).Tidy []
  | [], s, h, ht => by
    refine ⟨h, ?_, ht⟩
    have hkeep : dropOn worker tiers [] = keep := by
      funext i w held
      exact if_neg fun hmem => not_mem_nil hmem.1
    exact hkeep ▸ Cut.refl s
  | id :: ids, s, h, ht => by
    obtain ⟨h1, hcut, ht1⟩ := removeTarget_spec worker tiers h ht id
    obtain ⟨h2, hcut', ht2⟩ := foldl_removeTarget_spec worker tiers ids h1 ht1
    refine ⟨h2, ?_, ht2⟩
    rw [← dropOn_cons]
    exact hcut.trans hcut' (dropOn_none worker tiers ids)

/-- **A removal of blocks** clears the tiers at every node that carries one of them. -/
theorem remove_spec (o : IterOrder) (worker : KvWorkerId) (hashes : List Int64) (tiers : Tiers)
    (h : s.Shaped) (ht : s.Tidy []) :
    (s.remove o worker hashes tiers).Shaped ∧ (s.remove o worker hashes tiers).Tidy [] ∧
      Cut (dropOn worker tiers (hashes.flatMap fun x => o.order (s.carriers x))) s
        (s.remove o worker hashes tiers) := by
  obtain ⟨h', hcut, ht'⟩ := foldl_removeTarget_spec worker tiers
    (hashes.flatMap fun x => o.order (s.carriers x)) h ht
  exact ⟨h', ht', hcut⟩

/-! ## Removing a worker -/

/-- `worker` loses everything at the nodes of `ids`. -/
def clearOn (ids : List NodeId) : Effect :=
  fun id w held => if id ∈ ids ∧ w = worker then none else held

lemma clearOn_none (ids : List NodeId) (id : NodeId) (w : KvWorkerId) :
    clearOn worker ids id w none = none := ite_self none

lemma clearOn_cons (id : NodeId) (ids : List NodeId) :
    (fun i w held => clearOn worker ids i w (clearOn worker [id] i w held)) =
      clearOn worker (id :: ids) := by
  grind [clearOn]

/-- Clearing a worker at one node; nodes that may have to be pruned are collected for later. -/
lemma clearTarget_spec {acc : TreeState × List NodeId}
    (h : acc.1.Shaped) (ht : acc.1.Tidy acc.2) (id : NodeId) :
    (clearTarget worker acc id).1.Shaped ∧
      Cut (clearOn worker [id]) acc.1 (clearTarget worker acc id).1 ∧
      (clearTarget worker acc id).1.Tidy (clearTarget worker acc id).2 := by
  have hsame (hnot : ∀ n, acc.1.node id = some n → n.workers.lookup worker = none) :
      Cut (clearOn worker [id]) acc.1 acc.1 := by
    refine ⟨fun {i m} hm => ⟨m, hm, rfl, rfl, fun w => ?_⟩, fun hm _ => ⟨_, hm⟩⟩
    rw [clearOn]
    split
    · next hi => rw [hi.2, hnot m (mem_singleton.1 hi.1 ▸ hm)]
    · rfl
  rw [clearTarget]
  cases hn : acc.1.node id with
  | none => exact ⟨h, hsame fun n hn' => (by cases hn.symm.trans hn'), ht⟩
  | some n =>
    dsimp only
    cases hw : n.workers.lookup worker with
    | none =>
      grind
    | some held =>
      refine ⟨h.setWorkers hn _, cut_setWorkers hn (fun w => ?_) fun i w t hi => ?_, ?_⟩
      · simp only [Map.lookup_erase_ite, clearOn, mem_singleton, true_and]
      · exact if_neg fun hmem => hi (mem_singleton.1 hmem.1)
      · dsimp only
        split
        · intro i m hm hne hpr
          rw [mem_append, mem_singleton, or_comm, ← mem_cons]
          exact tidy_setWorkers ht _ _ hm hne hpr
        · next hempty => exact tidy_setWorkers_of ht (Bool.not_eq_true _ ▸ hempty)

lemma foldl_clearTarget_spec (worker : KvWorkerId) :
    ∀ (ids : List NodeId) {acc : TreeState × List NodeId}, acc.1.Shaped → acc.1.Tidy acc.2 →
    (ids.foldl (clearTarget worker) acc).1.Shaped ∧
      Cut (clearOn worker ids) acc.1 (ids.foldl (clearTarget worker) acc).1 ∧
      (ids.foldl (clearTarget worker) acc).1.Tidy (ids.foldl (clearTarget worker) acc).2
  | [], acc, h, ht => by
    refine ⟨h, ?_, ht⟩
    have hkeep : clearOn worker [] = keep := by
      funext i w held
      exact if_neg fun hmem => not_mem_nil hmem.1
    exact hkeep ▸ Cut.refl acc.1
  | id :: ids, acc, h, ht => by
    obtain ⟨h1, hcut, ht1⟩ := clearTarget_spec worker h ht id
    obtain ⟨h2, hcut', ht2⟩ := foldl_clearTarget_spec worker ids h1 ht1
    refine ⟨h2, ?_, ht2⟩
    rw [← clearOn_cons]
    exact hcut.trans hcut' (clearOn_none worker ids)

/-- The collected nodes are pruned, and the shard is tidy again. -/
lemma foldl_pruneCandidate_spec : ∀ (ids : List NodeId) {s : TreeState}, s.Shaped → s.Tidy ids →
    (ids.foldl pruneCandidate s).Shaped ∧ Cut keep s (ids.foldl pruneCandidate s) ∧
      (ids.foldl pruneCandidate s).Tidy []
  | [], s, h, ht => ⟨h, .refl s, ht⟩
  | id :: ids, s, h, ht => by
    have hone : (pruneCandidate s id).Shaped ∧ Cut keep s (pruneCandidate s id) ∧
        (pruneCandidate s id).Tidy ids := by
      rw [pruneCandidate]
      split
      · exact pruneCascade_spec h ht
      next hnone =>
      rw [not_isSome_iff_eq_none] at hnone
      exact ⟨h, .refl s, ht.tail fun n hn _ => (by cases hnone.symm.trans hn)⟩
    obtain ⟨h1, hcut, ht1⟩ := hone
    obtain ⟨h2, hcut', ht2⟩ := foldl_pruneCandidate_spec ids h1 ht1
    exact ⟨h2, hcut.trans hcut' fun _ _ => rfl, ht2⟩

/-- **A removal of a worker** takes it from every node but the root, which has no carriers. -/
theorem clearWorker_spec (o : IterOrder) (worker : KvWorkerId) (h : s.Shaped) (ht : s.Tidy []) :
    (s.clearWorker o worker).Shaped ∧ (s.clearWorker o worker).Tidy [] ∧
      Cut (clearOn worker ((o.order s.nodes.keys).filter fun id => id ≠ rootId)) s
        (s.clearWorker o worker) := by
  have hfirst : (s, ([] : List NodeId)).1.Shaped := h
  obtain ⟨h1, hcut, ht1⟩ := foldl_clearTarget_spec worker
    ((o.order s.nodes.keys).filter fun id => id ≠ rootId) hfirst ht
  obtain ⟨h2, hcut', ht2⟩ := foldl_pruneCandidate_spec _ h1 ht1
  exact ⟨h2, ht2, hcut.trans hcut' fun _ _ => rfl⟩

end Sglang.Router.TreeState
