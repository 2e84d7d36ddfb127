import Sglang.Router.Tree

/-!
# The shape of a shard

A shard is `Shaped` when it is what its invariants in `tree.rs` say: the root is there, parent and
child pointers agree, the reverse index lists exactly the nodes that carry a hash, and the ids in
use are below `nextId`.  Since a child is created after its parent, ids grow along every chain,
which is what the inductions over chains use.

The operations that take something away (`removeTarget`, `clearWorker` and the cascade of prunes
both end with) are described by one relation, `Cut e s s'`: what is left are nodes of `s` with the
carriers that the effect `e` leaves, and a node with a carrier left is not lost.  `Tidy` says that
no node is left with neither a carrier nor a child.
-/

namespace Sglang.Router.TreeState

section
open Lib List Option Map

variable {s s' : TreeState}

/-- The invariants of a shard. -/
structure Shaped (s : TreeState) : Prop where
  root : ∃ n, s.node rootId = some n ∧ n.parent = none
  up : ∀ {id n}, s.node id = some n → id ≠ rootId →
    ∃ p pn, n.parent = some p ∧ p < id ∧ s.node p = some pn ∧
      pn.children.lookup n.blockHash = some id
  down : ∀ {id n h c}, s.node id = some n → n.children.lookup h = some c →
    ∃ cn, s.node c = some cn ∧ cn.parent = some id ∧ cn.blockHash = h
  index : ∀ {h ids}, s.byHash.lookup h = some ids → ids ≠ [] ∧ ids.Nodup
  mem_carriers : ∀ {h id}, id ∈ s.carriers h ↔
    id ≠ rootId ∧ ∃ n, s.node id = some n ∧ n.blockHash = h
  fresh : ∀ {id n}, s.node id = some n → id < s.nextId

variable {id p : NodeId} {n : Node}

/-- The root has no parent. -/
lemma Shaped.ne_root_of_parent (h : s.Shaped) (hn : s.node id = some n) (hp : n.parent = some p) :
    id ≠ rootId := by
  rintro rfl
  obtain ⟨r, hr, hnone⟩ := h.root
  rw [hr, some_inj] at hn
  rw [← hn, hnone] at hp
  cases hp

variable {c : NodeId} {hash : Int64}

lemma Shaped.ne_root_of_child (h : s.Shaped) (hn : s.node id = some n)
    (hc : n.children.lookup hash = some c) : c ≠ rootId := by
  grind [h.down, h.ne_root_of_parent]

lemma node_new (id : NodeId) :
    new.node id = if id = rootId then some ⟨rootHashSentinel, none, none, ∅, ∅⟩ else none := by
  rw [node, new, lookup_insert_ite, AList.lookup_empty]

lemma shaped_new : new.Shaped where
  root := ⟨_, by rw [node_new, if_pos rfl], rfl⟩
  up hn hne := by
    rw [node_new, if_neg hne] at hn
    cases hn
  down hn hc := by
    rw [node_new] at hn
    split at hn
    · rw [some_inj] at hn
      rw [← hn, AList.lookup_empty] at hc
      cases hc
    · cases hn
  index h := by cases h
  mem_carriers {h id} := by
    constructor
    · intro hid
      cases hid
    · rintro ⟨hne, n, hn, -⟩
      rw [node_new, if_neg hne] at hn
      cases hn
  fresh {id n} hn := by
    rw [node_new] at hn
    split at hn
    · next h => exact h ▸ Nat.zero_lt_one
    · cases hn

/-! ## Writing back the carriers of a node -/

lemma node_setWorkers (s : TreeState) (id : NodeId) (n : Node)
    (workers : Map KvWorkerId Tiers) (i : NodeId) :
    (s.setWorkers id n workers).node i = if i = id then some { n with workers } else s.node i :=
  Map.lookup_insert_ite i id _

variable {i : NodeId}

/-- A node with other carriers is the same node in all that the shape is about. -/
lemma exists_of_setWorkers {n' : Node} {workers : Map KvWorkerId Tiers}
    (hn : s.node id = some n) (h : (s.setWorkers id n workers).node i = some n') :
    ∃ m, s.node i = some m ∧ n'.parent = m.parent ∧ n'.children = m.children ∧
      n'.blockHash = m.blockHash := by
  grind [node_setWorkers]

/-- Changing the carriers of a node leaves all pointers as they are. -/
lemma setWorkers_of_exists {m : Node} (workers : Map KvWorkerId Tiers) (hn : s.node id = some n)
    (h : s.node i = some m) :
    ∃ n', (s.setWorkers id n workers).node i = some n' ∧ n'.parent = m.parent ∧
      n'.children = m.children ∧ n'.blockHash = m.blockHash := by
  grind [node_setWorkers]

lemma Shaped.setWorkers (h : s.Shaped) (hn : s.node id = some n)
    (workers : Map KvWorkerId Tiers) : (s.setWorkers id n workers).Shaped where
  root := by
    obtain ⟨r, hr, hnone⟩ := h.root
    obtain ⟨r', hr', hp, -⟩ := setWorkers_of_exists workers hn hr
    exact ⟨r', hr', hp.trans hnone⟩
  up {i m'} hm' hne := by
    obtain ⟨m, hm, hpar, -, hhash⟩ := exists_of_setWorkers hn hm'
    obtain ⟨p, pn, hp, hlt, hpn, hch⟩ := h.up hm hne
    obtain ⟨pn', hpn', -, hch', -⟩ := setWorkers_of_exists workers hn hpn
    exact ⟨p, pn', hpar.trans hp, hlt, hpn', by rw [hch', hhash, hch]⟩
  down {i m' hash c} hm' hc := by
    obtain ⟨m, hm, -, hch, -⟩ := exists_of_setWorkers hn hm'
    obtain ⟨cn, hcn, hp, hh⟩ := h.down hm (hch ▸ hc)
    obtain ⟨cn', hcn', hp', -, hh'⟩ := setWorkers_of_exists workers hn hcn
    exact ⟨cn', hcn', hp'.trans hp, hh'.trans hh⟩
  index := h.index
  mem_carriers {hash i} := by
    change i ∈ s.carriers hash ↔ _
    rw [h.mem_carriers]
    refine and_congr_right fun _ => ?_
    constructor
    · rintro ⟨m, hm, hh⟩
      obtain ⟨m', hm', -, -, hh'⟩ := setWorkers_of_exists workers hn hm
      exact ⟨m', hm', hh'.trans hh⟩
    · grind [exists_of_setWorkers]
  fresh {i m'} hm' := by
    obtain ⟨m, hm, -⟩ := exists_of_setWorkers hn hm'
    exact h.fresh hm

/-! ## Creating a child -/

variable {pn : Node}

/-- A child that is not there yet can be created, under an id not used before. -/
lemma createChild_eq (h : s.Shaped) (hp : s.node p = some pn) (hash : Int64)
    (prev : Option Int64) :
    s.createChild p hash prev = (some s.nextId,
        { nodes := (s.nodes.insert s.nextId (.newChild hash prev p)).insert p
            { pn with children := pn.children.insert hash s.nextId }
          byHash := s.byHash.insert hash ((s.carriers hash).insert s.nextId)
          nextId := s.nextId + 1 }) := by
  have hne : p ≠ s.nextId := (h.fresh hp).ne
  rw [createChild, lookup_insert_ite, if_neg hne, show s.nodes.lookup p = some pn from hp]

/-- The nodes after a child was created. -/
structure Grown (s s' : TreeState) (p : NodeId) (pn : Node) (hash : Int64) (prev : Option Int64) :
    Prop where
  parent : s'.node p = some { pn with children := pn.children.insert hash s.nextId }
  child : s'.node s.nextId = some (.newChild hash prev p)
  other : ∀ {i}, i ≠ p → i ≠ s.nextId → s'.node i = s.node i

/-- A new child is linked with its parent, and no other node changes. -/
lemma grown_createChild (h : s.Shaped) (hp : s.node p = some pn) (hash : Int64)
    (prev : Option Int64) : Grown s (s.createChild p hash prev).2 p pn hash prev := by
  have hne : s.nextId ≠ p := (h.fresh hp).ne'
  rw [createChild_eq h hp]
  refine ⟨?_, ?_, fun {i} hip hic => ?_⟩
  · rw [node, lookup_insert_ite, if_pos rfl]
  · rw [node, lookup_insert_ite, if_neg hne, lookup_insert_ite, if_pos rfl]
  · rw [node, lookup_insert_ite, if_neg hip, lookup_insert_ite, if_neg hic, node]

variable {prev : Option Int64}

/-- A node after a child was made: the parent, the child, or one that has not changed. -/
lemma Grown.cases (g : Grown s s' p pn hash prev) (hi : s'.node i = some n) :
    (i = p ∧ n = { pn with children := pn.children.insert hash s.nextId }) ∨
      (i = s.nextId ∧ n = .newChild hash prev p) ∨ s.node i = some n := by
  by_cases hip : i = p
  · rw [hip, g.parent, some_inj] at hi
    exact .inl ⟨hip, hi.symm⟩
  · by_cases hic : i = s.nextId
    · rw [hic, g.child, some_inj] at hi
      exact .inr (.inl ⟨hic, hi.symm⟩)
    · exact .inr (.inr (g.other hip hic ▸ hi))

/-- What was there stays, with at most one child more. -/
lemma Grown.old (g : Grown s s' p pn hash prev) (h : s.Shaped) (hp : s.node p = some pn)
    (hnone : pn.children.lookup hash = none) (hi : s.node i = some n) :
    ∃ n', s'.node i = some n' ∧ n'.parent = n.parent ∧ n'.blockHash = n.blockHash ∧
      ∀ x c, n.children.lookup x = some c → n'.children.lookup x = some c := by
  by_cases hip : i = p
  · subst hip
    rw [hp, some_inj] at hi
    subst hi
    refine ⟨_, g.parent, rfl, rfl, fun x c hx => ?_⟩
    rw [lookup_insert_ite, if_neg, hx]
    rintro rfl
    rw [hnone] at hx
    cases hx
  · exact ⟨n, (g.other hip (h.fresh hi).ne).trans hi, rfl, rfl, fun _ _ hx => hx⟩

lemma Shaped.nodup_carriers (h : s.Shaped) (hash : Int64) : (s.carriers hash).Nodup := by
  rw [carriers]
  cases hl : s.byHash.lookup hash with
  | none => exact nodup_nil
  | some ids => exact (h.index hl).2

/-- The new node is listed under its hash in the reverse index. -/
lemma carriers_createChild (h : s.Shaped) (hp : s.node p = some pn) (hash : Int64)
    (prev : Option Int64) (x : Int64) :
    (s.createChild p hash prev).2.carriers x =
      if x = hash then (s.carriers hash).insert s.nextId else s.carriers x := by
  rw [createChild_eq h hp, carriers, lookup_insert_ite]
  split
  · rfl
  · rfl

/-- A child that is not there yet can be made without breaking the shape. -/
lemma Shaped.createChild (h : s.Shaped) (hp : s.node p = some pn)
    (hnone : pn.children.lookup hash = none) (prev : Option Int64) :
    (s.createChild p hash prev).2.Shaped := by
  have g := grown_createChild h hp hash prev
  have hlt : p < s.nextId := h.fresh hp
  have hnew : s.nextId ≠ rootId := by
    obtain ⟨r, hr, -⟩ := h.root
    exact (h.fresh hr).ne'
  refine ⟨?root, ?up, ?down, ?index, ?mem, ?fresh⟩
  case root =>
    obtain ⟨r, hr, hpar⟩ := h.root
    obtain ⟨r', hr', hpar', -⟩ := g.old h hp hnone hr
    exact ⟨r', hr', hpar'.trans hpar⟩
  case up =>
    intro i n' hi hne
    have hold {n : Node} (hn : s.node i = some n) : ∃ q qn, n.parent = some q ∧ q < i ∧
        (s.createChild p hash prev).2.node q = some qn ∧
        qn.children.lookup n.blockHash = some i := by
      obtain ⟨q, qn, hpar, hqi, hq, hch⟩ := h.up hn hne
      obtain ⟨qn', hq', -, -, hch'⟩ := g.old h hp hnone hq
      exact ⟨q, qn', hpar, hqi, hq', hch' _ _ hch⟩
    obtain ⟨rfl, rfl⟩ | ⟨rfl, rfl⟩ | hn := g.cases hi
    · grind
    · exact ⟨p, _, rfl, hlt, g.parent, by rw [lookup_insert_ite]; exact if_pos rfl⟩
    · exact hold hn
  case down =>
    intro i n' x c hi hc
    have hold {n : Node} (hn : s.node i = some n) (hx : n.children.lookup x = some c) :
        ∃ cn, (s.createChild p hash prev).2.node c = some cn ∧ cn.parent = some i ∧
          cn.blockHash = x := by
      obtain ⟨cn, hcn, hpar, hh⟩ := h.down hn hx
      obtain ⟨cn', hcn', hpar', hh', -⟩ := g.old h hp hnone hcn
      exact ⟨cn', hcn', hpar'.trans hpar, hh'.trans hh⟩
    obtain ⟨rfl, rfl⟩ | ⟨rfl, rfl⟩ | hn := g.cases hi
    · rw [lookup_insert_ite] at hc
      split at hc
      · next hx =>
        rw [some_inj] at hc
        subst hc hx
        exact ⟨_, g.child, rfl, rfl⟩
      · exact hold hp hc
    · cases hc
    · exact hold hn hc
  case index =>
    intro x ids hx
    rw [createChild_eq h hp, lookup_insert_ite] at hx
    split at hx
    · rw [some_inj] at hx
      subst hx
      exact ⟨ne_nil_of_mem mem_insert_self, (h.nodup_carriers hash).insert⟩
    · exact h.index hx
  case mem =>
    intro x i
    rw [carriers_createChild h hp]
    constructor
    · intro hmem
      have hold (hi : i ∈ s.carriers x) :
          i ≠ rootId ∧ ∃ n, (s.createChild p hash prev).2.node i = some n ∧ n.blockHash = x := by
        obtain ⟨hne, n, hn, hh⟩ := h.mem_carriers.1 hi
        obtain ⟨n', hn', -, hh', -⟩ := g.old h hp hnone hn
        exact ⟨hne, n', hn', hh'.trans hh⟩
      split at hmem
      · next hx =>
        obtain rfl | hi := mem_insert_iff.1 hmem
        · exact ⟨hnew, _, g.child, hx.symm⟩
        · exact hold (hx ▸ hi)
      · exact hold hmem
    · rintro ⟨hne, n, hn, rfl⟩
      have hold {m : Node} (hm : s.node i = some m) (hh : m.blockHash = n.blockHash) :
          i ∈ if n.blockHash = hash then (s.carriers hash).insert s.nextId
            else s.carriers n.blockHash := by
        have hi : i ∈ s.carriers n.blockHash := h.mem_carriers.2 ⟨hne, m, hm, hh⟩
        split
        · next hx => exact mem_insert_of_mem (hx ▸ hi)
        · exact hi
      obtain ⟨rfl, rfl⟩ | ⟨rfl, rfl⟩ | hn := g.cases hn
      · exact hold hp rfl
      · rw [if_pos (show (Node.newChild hash prev p).blockHash = hash from rfl)]
        exact mem_insert_self
      · exact hold hn rfl
  case fresh =>
    intro i n hi
    have hnext : (s.createChild p hash prev).2.nextId = s.nextId + 1 := by
      rw [createChild_eq h hp]
    rw [hnext]
    obtain ⟨rfl, -⟩ | ⟨rfl, -⟩ | hn := g.cases hi
    · exact Nat.lt_succ_of_lt hlt
    · exact Nat.lt_succ_self _
    · exact Nat.lt_succ_of_lt (h.fresh hn)

/-! ## Taking a node out -/

/-- The nodes after the childless node `c` was taken out of its parent `p`. -/
structure Detached (s s' : TreeState) (c p : NodeId) (pn : Node) (hash : Int64) : Prop where
  gone : s'.node c = none
  parent : s'.node p = some { pn with children := pn.children.erase hash }
  other : ∀ {i}, i ≠ c → i ≠ p → s'.node i = s.node i

lemma detached_detach (hp : s.node p = some pn) (hcp : p ≠ c) (hash : Int64) :
    Detached s (s.detach c p hash) c p pn hash := by
  have hnode (i : NodeId) : (s.detach c p hash).node i = if i = c then none else
      if i = p then some { pn with children := pn.children.erase hash } else s.node i := by
    rw [detach, node, lookup_erase_ite, hp, lookup_insert_ite, node]
  refine ⟨?_, ?_, fun hic hip => ?_⟩
  · rw [hnode, if_pos rfl]
  · rw [hnode, if_neg hcp, if_pos rfl]
  · rw [hnode, if_neg hic, if_neg hip]

/-- A node after one was pruned: the parent, or one that has not changed. -/
lemma Detached.cases (d : Detached s s' c p pn hash) (hi : s'.node i = some n) :
    i ≠ c ∧ ((i = p ∧ n = { pn with children := pn.children.erase hash }) ∨ s.node i = some n) := by
  grind [d.gone, d.parent, d.other]

/-- What is left is as before, with at most one child less. -/
lemma Detached.old (d : Detached s s' c p pn hash) (hp : s.node p = some pn)
    (hi : s.node i = some n) (hic : i ≠ c) :
    ∃ n', s'.node i = some n' ∧ n'.parent = n.parent ∧ n'.blockHash = n.blockHash ∧
      n'.workers = n.workers ∧
      ∀ x, (i ≠ p ∨ x ≠ hash) → n'.children.lookup x = n.children.lookup x := by
  by_cases hip : i = p
  · subst hip
    rw [hp, some_inj] at hi
    subst hi
    refine ⟨_, d.parent, rfl, rfl, rfl, fun x hx => ?_⟩
    rw [lookup_erase_ite, if_neg (hx.resolve_left fun h => h rfl)]
  · exact ⟨n, (d.other hic hip).trans hi, rfl, rfl, rfl, fun _ _ => rfl⟩

/-- The reverse index drops a hash with its last node. -/
lemma lookup_unindex (byHash : Map Int64 (List NodeId)) (c : NodeId) (hash x : Int64) :
    (unindex byHash c hash).lookup x = if x = hash then (byHash.lookup hash).bind fun set =>
        if (set.erase c).isEmpty then none else some (set.erase c)
      else byHash.lookup x := by
  grind [unindex, lookup_erase_ite, lookup_insert_ite]

lemma carriers_detach (c p : NodeId) (hash x : Int64) :
    (s.detach c p hash).carriers x =
      if x = hash then (s.carriers hash).erase c else s.carriers x := by
  change ((unindex s.byHash c hash).lookup x).getD [] = _
  rw [lookup_unindex]
  split
  · rw [carriers]
    cases s.byHash.lookup hash with
    | none => rfl
    | some set =>
      grind
  · rfl

/-- A node without children can be pruned without breaking the shape. -/
lemma Shaped.detach (h : s.Shaped) (hc : s.node c = some n) (hpar : n.parent = some p)
    (hp : s.node p = some pn) (hempty : n.children.isEmpty = true) :
    (s.detach c p n.blockHash).Shaped := by
  have hne : c ≠ rootId := h.ne_root_of_parent hc hpar
  obtain ⟨q, qn, hq, hlt, hqn, hch⟩ := h.up hc hne
  rw [hpar, some_inj] at hq
  subst hq
  rw [hp, some_inj] at hqn
  subst hqn
  have d := detached_detach hp hlt.ne n.blockHash
  refine ⟨?root, ?up, ?down, ?index, ?mem, ?fresh⟩
  case root =>
    obtain ⟨r, hr, hrp⟩ := h.root
    obtain ⟨r', hr', hrp', -⟩ := d.old hp hr hne.symm
    exact ⟨r', hr', hrp'.trans hrp⟩
  case up =>
    intro i m' hi hir
    have hold {m : Node} (hm : s.node i = some m) (hic : i ≠ c) : ∃ r rn, m.parent = some r ∧
        r < i ∧ (s.detach c p n.blockHash).node r = some rn ∧
        rn.children.lookup m.blockHash = some i := by
      obtain ⟨r, rn, hr, hri, hrn, hrc⟩ := h.up hm hir
      have hrne : r ≠ c := by
        -- `c` has no children, so it is nobody's parent
        rintro rfl
        rw [hc, some_inj] at hrn
        rw [← hrn, Map.isEmpty_iff.1 hempty] at hrc
        cases hrc
      obtain ⟨rn', hrn', -, -, -, hrc'⟩ := d.old hp hrn hrne
      refine ⟨r, rn', hr, hri, hrn', (hrc' _ ?_).trans hrc⟩
      by_contra! hcon
      obtain ⟨rfl, hh⟩ := hcon
      rw [hp, some_inj] at hrn
      rw [hh, ← hrn, hch, some_inj] at hrc
      exact hic hrc.symm
    obtain ⟨hic, ⟨rfl, rfl⟩ | hm⟩ := d.cases hi
    · obtain ⟨r, rn, hr⟩ := hold hp hic
      exact ⟨r, rn, hr⟩
    · exact hold hm hic
  case down =>
    intro i m' x e hi he
    have hold {m : Node} (hm : s.node i = some m) (hx : m.children.lookup x = some e)
        (hpx : i ≠ p ∨ x ≠ n.blockHash) :
        ∃ en, (s.detach c p n.blockHash).node e = some en ∧ en.parent = some i ∧
          en.blockHash = x := by
      obtain ⟨en, hen, hep, heh⟩ := h.down hm hx
      have hec : e ≠ c := by
        grind
      obtain ⟨en', hen', hep', heh', -⟩ := d.old hp hen hec
      exact ⟨en', hen', hep'.trans hep, heh'.trans heh⟩
    obtain ⟨-, ⟨rfl, rfl⟩ | hm⟩ := d.cases hi
    · grind [Map.lookup_erase_ite]
    · by_cases hip : i = p
      · subst hip
        rw [d.parent, some_inj] at hi
        rw [← hi, Map.lookup_erase_ite] at he
        split at he
        · cases he
        · next hx => exact hold hp he (.inr hx)
      · exact hold hm he (.inl hip)
  case index =>
    intro x ids hx
    change (unindex s.byHash c n.blockHash).lookup x = some ids at hx
    rw [lookup_unindex] at hx
    split at hx
    · obtain ⟨set, hset, hx⟩ := bind_eq_some_iff.1 hx
      split at hx
      · cases hx
      next he =>
      rw [some_inj] at hx
      subst hx
      exact ⟨fun hnil => he (List.isEmpty_iff.2 hnil), (h.index hset).2.erase c⟩
    · exact h.index hx
  case mem =>
    intro x i
    rw [carriers_detach]
    have hiff : (i ∈ if x = n.blockHash then (s.carriers n.blockHash).erase c else s.carriers x) ↔
        i ≠ c ∧ i ∈ s.carriers x := by
      split
      · next hx => rw [hx, (h.nodup_carriers _).mem_erase_iff]
      · next hx =>
        refine ⟨fun hi => ⟨?_, hi⟩, And.right⟩
        rintro rfl
        obtain ⟨-, m, hm, hmx⟩ := h.mem_carriers.1 hi
        rw [hc, some_inj] at hm
        exact hx (hm ▸ hmx.symm)
    rw [hiff, h.mem_carriers]
    constructor
    · rintro ⟨hic, hir, m, hm, hh⟩
      obtain ⟨m', hm', -, hh', -⟩ := d.old hp hm hic
      exact ⟨hir, m', hm', hh'.trans hh⟩
    · grind [d.cases]
  case fresh =>
    intro i m hi
    obtain ⟨-, ⟨rfl, -⟩ | hm⟩ := d.cases hi
    · exact h.fresh hp
    · exact h.fresh hm

end

end Sglang.Router.TreeState
