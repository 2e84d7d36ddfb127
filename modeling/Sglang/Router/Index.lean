import Sglang.Router.Removal

/-!
# What the index says a worker holds

`Holdings` is the index as the engines mean it: for every worker and every block, the tiers on
which the worker's own events leave it.  `Indexes parentOf own f` says that a family of shards
represents `own` exactly, when every block is stored behind the block `parentOf` gives it:

* the shards are shaped, a node hangs under the node of the block before it, and a chain lies in
  the shard of its first block (`Planted`);
* the carriers of a node are those of `own`;
* every block that somebody holds has a node.

A block then has one node in one shard (`Planted.unique`), so the parent a store names is found
where it is, and a removal by hash meets it.
-/

namespace Sglang.Router
open Lib TreeState List Option Function HashTree

/-! ## Holdings -/

/-- The tiers on which each worker's events leave each block. -/
abbrev Holdings := KvWorkerId → Int64 → Tiers

namespace Holdings

/-- Nobody holds anything. -/
def empty : Holdings := fun _ _ => .none

def store (own : Holdings) (worker : KvWorkerId) (hashes : List Int64) (tiers : Tiers) : Holdings :=
  fun w h => if w = worker ∧ h ∈ hashes then (own w h).union tiers else own w h

def remove (own : Holdings) (worker : KvWorkerId) (hashes : List Int64) (tiers : Tiers) : Holdings :=
  fun w h => if w = worker ∧ h ∈ hashes then (own w h).difference tiers else own w h

def clear (own : Holdings) (worker : KvWorkerId) : Holdings :=
  fun w h => if w = worker then .none else own w h

/-- What an event of `worker` means for its holdings. -/
def apply (own : Holdings) (worker : KvWorkerId) : KvCacheEvent → Holdings
  | .blockStored hashes _ medium => own.store worker hashes (.forStore medium)
  | .blockRemoved hashes medium => own.remove worker hashes (.forRemove medium)
  | .allBlocksCleared => own.clear worker

/-- `worker` holds the block on some tier. -/
def Holds (own : Holdings) (worker : KvWorkerId) (h : Int64) : Prop :=
  (own worker h).isEmpty = false

instance (own : Holdings) (worker : KvWorkerId) (h : Int64) : Decidable (own.Holds worker h) :=
  inferInstanceAs (Decidable (_ = false))

lemma store_cons (own : Holdings) (worker : KvWorkerId) (h : Int64) (hs : List Int64)
    (tiers : Tiers) :
    (own.store worker [h] tiers).store worker hs tiers = own.store worker (h :: hs) tiers := by
  grind [store, Tiers.union_union]

end Holdings

/-- `hs` is a chain that goes on from the block `p`, or from nothing. -/
def Follows (parentOf : Int64 → Option Int64) : Option Int64 → List Int64 → Prop
  | _, [] => True
  | p, h :: hs => parentOf h = p ∧ Follows parentOf (some h) hs

/-! ## Blocks and their nodes -/

variable {parentOf : Int64 → Option Int64}

/-- Every node of shard `i` hangs under the block before it, and every chain starts with a block of
the shard. -/
structure Planted (parentOf : Int64 → Option Int64) (i : Fin nShards) (s : TreeState) : Prop where
  shaped : s.Shaped
  link : ∀ {id n p pn}, s.node id = some n → n.parent = some p → s.node p = some pn →
    parentOf n.blockHash = if p = rootId then none else some pn.blockHash
  home : ∀ {id n}, s.node id = some n → n.parent = some rootId → shardOf n.blockHash = i

variable {i : Fin nShards} {s : TreeState} {n : Node} {j : Fin nShards} {b : NodeId} {m : Node}

/-- A hash has one node in all shards together. -/
lemma Planted.unique {t : TreeState} (hs : Planted parentOf i s) (ht : Planted parentOf j t)
    {a : NodeId} (ha : s.node a = some n) (hb : t.node b = some m) (har : a ≠ rootId)
    (hbr : b ≠ rootId) (hh : n.blockHash = m.blockHash) : i = j ∧ (s = t → a = b) := by
  -- along the chain of `a`, since ids grow along chains
  induction a using Nat.strong_induction_on generalizing b n m with
  | _ a ih =>
    obtain ⟨p, pn, hpar, hpa, hp, hpc⟩ := hs.shaped.up ha har
    obtain ⟨q, qn, hqar, -, hq, hqc⟩ := ht.shaped.up hb hbr
    have hlink := hs.link ha hpar hp
    rw [hh, ht.link hb hqar hq] at hlink
    have hsame (hst : s = t) (hpq : p = q) : a = b := by
      grind
    by_cases hpr : p = rootId
    · have hqr : q = rootId := by
        grind
      have hij : i = j := by
        rw [← hs.home ha (hpr ▸ hpar), hh, ht.home hb (hqr ▸ hqar)]
      exact ⟨hij, fun hst => hsame hst (hpr.trans hqr.symm)⟩
    · have hqr : q ≠ rootId := by
        grind
      rw [if_neg hqr, if_neg hpr, some_inj] at hlink
      obtain ⟨hij, hpq⟩ := ih p hpa hp hq hpr hqr hlink.symm
      exact ⟨hij, fun hst => hsame hst (hpq hst)⟩

/-- The node `id` of shard `i` is where a chain goes on with a block whose parent is `p`. -/
structure Stands (i : Fin nShards) (s : TreeState) (id : NodeId) (p : Option Int64) (h : Int64) :
    Prop where
  present : ∃ n, s.node id = some n ∧ p = if id = rootId then none else some n.blockHash
  home : id = rootId → shardOf h = i

variable {current : NodeId} {h : Int64}

/-- Wherever a block has a node, it is the child of the node its chain comes from. -/
lemma Planted.child_of_stands {t : TreeState} (hs : Planted parentOf i s)
    (ht : Planted parentOf j t) (hst : Stands i s current (parentOf h) h) (hb : t.node b = some m)
    (hbr : b ≠ rootId) (hh : m.blockHash = h) : j = i ∧ (t = s → s.child current h = some b) := by
  obtain ⟨n, hn, hp⟩ := hst.present
  obtain ⟨q, qn, hqar, -, hq, hqc⟩ := ht.shaped.up hb hbr
  have hlink := ht.link hb hqar hq
  rw [hh] at hlink hqc
  rw [hlink] at hp
  have hsame (hts : t = s) (hqcur : q = current) : s.child current h = some b := by
    simp_all [child]
  by_cases hcr : current = rootId
  · have hqr : q = rootId := by
      grind
    refine ⟨?_, fun hts => hsame hts (hqr.trans hcr.symm)⟩
    rw [← hst.home hcr, ← hh, ht.home hb (hqr ▸ hqar)]
  · have hqr : q ≠ rootId := by
      grind
    rw [if_neg hqr, if_neg hcr, some_inj] at hp
    obtain ⟨hji, hqcur⟩ := ht.unique hs hq hn hqr hcr hp
    exact ⟨hji, fun hts => hsame hts (hqcur hts)⟩

/-! ## The invariant -/

/-- The carriers of the nodes are those of `own`. -/
def Agrees (own : Holdings) (s : TreeState) : Prop :=
  ∀ id n, s.node id = some n → id ≠ rootId → ∀ w, n.workers.lookup w = (own w n.blockHash).entry

/-- The shards represent `own`. -/
structure Indexes (parentOf : Int64 → Option Int64) (own : Holdings)
    (f : Fin nShards → TreeState) : Prop where
  planted : ∀ i, Planted parentOf i (f i)
  agrees : ∀ i, Agrees own (f i)
  covers : ∀ {w h}, own.Holds w h → ∃ i id n, (f i).node id = some n ∧ id ≠ rootId ∧ n.blockHash = h

variable {own : Holdings} {f : Fin nShards → TreeState} {id : NodeId}

lemma parent_new {p : NodeId} (hn : new.node id = some n) : n.parent ≠ some p := by
  grind [node_new]

lemma indexes_new : Indexes parentOf .empty fun _ => .new where
  planted _ := ⟨shaped_new, fun hn hp _ => absurd hp (parent_new hn),
    fun hn hp => absurd hp (parent_new hn)⟩
  agrees _ id n hn hne := by
    rw [node_new, if_neg hne] at hn
    cases hn
  covers h := by cases h

/-- A block without a node is held by nobody. -/
lemma Indexes.not_holds (hI : Indexes parentOf own f)
    (hst : Stands i (f i) current (parentOf h) h) (hnone : (f i).child current h = none)
    (w : KvWorkerId) : (own w h).isEmpty = true := by
  by_contra hheld
  obtain ⟨j, b, m, hb, hbr, hh⟩ := hI.covers (Bool.not_eq_true _ ▸ hheld)
  obtain ⟨rfl, hchild⟩ := (hI.planted i).child_of_stands (hI.planted j) hst hb hbr hh
  rw [hchild rfl] at hnone
  cases hnone

variable {c : NodeId}

/-- A child of the node a chain comes from is the node of the next block. -/
lemma Indexes.child_spec (hI : Indexes parentOf own f) (hc : (f i).child current h = some c) :
    ∃ n, (f i).node c = some n ∧ c ≠ rootId ∧ n.blockHash = h ∧
      ∀ w, n.workers.lookup w = (own w h).entry := by
  obtain ⟨cn, hcn, hch⟩ := bind_eq_some_iff.1 hc
  have hne := (hI.planted i).shaped.ne_root_of_child hcn hch
  obtain ⟨n, hn, -, hh⟩ := (hI.planted i).shaped.down hcn hch
  exact ⟨n, hn, hne, hh, hh ▸ hI.agrees i c n hn hne⟩

variable {own' : Holdings}

/-- The invariant only asks, of a shard that is replaced, what concerns this shard. -/
lemma Indexes.update (hI : Indexes parentOf own f) (hs : Planted parentOf i s)
    (ha : Agrees own' s) (hother : ∀ j, j ≠ i → Agrees own' (f j))
    (hkept : ∀ {id n}, (f i).node id = some n → ∃ n', s.node id = some n' ∧
      n'.blockHash = n.blockHash) (hcov : ∀ {w h}, own'.Holds w h → own.Holds w h ∨
      ∃ id n, s.node id = some n ∧ id ≠ rootId ∧ n.blockHash = h) :
    Indexes parentOf own' (update f i s) where
  planted j := by
    by_cases hj : j = i
    · grind
    · rw [update_of_ne hj]
      exact hI.planted j
  agrees j := by
    grind
  covers {w h} hw := by
    have hhere {id : NodeId} {n : Node} (hn : s.node id = some n) hne
        hh :
        ∃ j id n, (Function.update f i s j).node id = some n ∧ id ≠ rootId ∧ n.blockHash = h :=
      ⟨i, id, n, by rw [update_self]; exact hn, hne, hh⟩
    obtain hold | ⟨id, n, hn, hne, hh⟩ := hcov hw
    · obtain ⟨j, id, n, hn, hne, hh⟩ := hI.covers hold
      by_cases hj : j = i
      · subst hj
        obtain ⟨n', hn', hh'⟩ := hkept hn
        exact hhere hn' hne (hh'.trans hh)
      · exact ⟨j, id, n, by rw [update_of_ne hj]; exact hn, hne, hh⟩
    · exact hhere hn hne hh

/-! ## Storing a chain -/

lemma lookup_addTiers {t : Tiers} (carriers : Map KvWorkerId Tiers) (worker w : KvWorkerId)
    (tiers : Tiers) (hw : carriers.lookup worker = t.entry) :
    (addTiers carriers worker tiers).lookup w =
      if w = worker then some (t.union tiers) else carriers.lookup w := by
  grind [addTiers, Tiers.isEmpty_iff, Map.lookup_insert_ite, Tiers.none_union, Tiers.entry]

/-- A node for the next block of a chain is planted where the chain comes from. -/
lemma Planted.createChild {cn : Node} (hs : Planted parentOf i s)
    (hst : Stands i s current (parentOf h) h) (hcn : s.node current = some cn)
    (hnone : cn.children.lookup h = none) (prev : Option Int64) :
    Planted parentOf i (s.createChild current h prev).2 := by
  have g := grown_createChild hs.shaped hcn h prev
  refine ⟨hs.shaped.createChild hcn hnone prev, ?link, ?home⟩
  case link =>
    intro id n p pn hn hpar hp
    have hold {m : Node} (hm : s.node id = some m) (hmp : m.parent = some p) :
        parentOf m.blockHash = if p = rootId then none else some pn.blockHash := by
      obtain ⟨q, qn, hq, -, hqn, -⟩ := hs.shaped.up hm (hs.shaped.ne_root_of_parent hm hmp)
      rw [hmp, some_inj] at hq
      subst hq
      obtain ⟨qn', hqn', -, hh, -⟩ := g.old hs.shaped hcn hnone hqn
      rw [hp, some_inj] at hqn'
      rw [hs.link hm hmp hqn, hqn', hh]
    obtain ⟨rfl, rfl⟩ | ⟨rfl, rfl⟩ | hm := g.cases hn
    · grind
    · grind [hst.present, g.parent, Node.newChild]
    · exact hold hm hpar
  case home =>
    intro id n hn hpar
    obtain ⟨rfl, rfl⟩ | ⟨rfl, rfl⟩ | hm := g.cases hn
    · grind [hs.home]
    · exact hst.home (some_inj.1 hpar)
    · exact hs.home hm hpar

/-- The node of the next block is there, or can be created empty. -/
lemma Indexes.childFor_spec (hI : Indexes parentOf own f)
    (hst : Stands i (f i) current (parentOf h) h) (prev : Option Int64) (ht : (f i).Tidy []) :
    ∃ c s, (f i).childFor current h prev = (some c, s) ∧ s.child current h = some c ∧
      Stands i s current (parentOf h) h ∧ s.Tidy [c] ∧
      Indexes parentOf own (Function.update f i s) := by
  rw [childFor]
  cases hchild : (f i).child current h with
  | some c =>
    refine ⟨c, f i, rfl, hchild, hst, fun id n hn hne hpr => ?_, ?_⟩
    · exact absurd (ht id n hn hne hpr) not_mem_nil
    · simp_all
  | none =>
    have hpl := hI.planted i
    obtain ⟨cn, hcn, hp⟩ := hst.present
    have hnone : cn.children.lookup h = none := by
      simp_all [child]
    have g := grown_createChild hpl.shaped hcn h prev
    refine ⟨(f i).nextId, ((f i).createChild current h prev).2, ?_, ?_, ?_, ?_, ?_⟩
    · rw [createChild_eq hpl.shaped hcn]
    · rw [child, g.parent, bind_some, Map.lookup_insert_ite, if_pos rfl]
    · exact ⟨⟨_, g.parent, hp⟩, hst.home⟩
    · intro id n hn hne hpr
      obtain ⟨rfl, rfl⟩ | ⟨rfl, rfl⟩ | hm := g.cases hn
      · rw [Node.prunable, Bool.and_eq_true, Map.isEmpty_iff, Map.isEmpty_iff] at hpr
        have hchild := hpr.2 h
        rw [Map.lookup_insert_ite, if_pos rfl] at hchild
        cases hchild
      · exact mem_singleton.2 rfl
      · exact absurd (ht id n hm hne hpr) not_mem_nil
    · refine hI.update (hpl.createChild hst hcn hnone prev) ?_ (fun j _ => hI.agrees j) ?_ .inl
      · intro id n hn hne w
        obtain ⟨rfl, rfl⟩ | ⟨rfl, rfl⟩ | hm := g.cases hn
        · exact hI.agrees i _ cn hcn hne w
        · exact (Tiers.entry_eq_none.2 (hI.not_holds hst hchild w)).symm
        · exact hI.agrees i id n hm hne w
      · intro id n hn
        obtain ⟨n', hn', -, hh, -⟩ := g.old hpl.shaped hcn hnone hn
        exact ⟨n', hn', hh⟩

lemma Planted.setWorkers (hs : Planted parentOf i s) (hn : s.node id = some n)
    (workers : Map KvWorkerId Tiers) :
    Planted parentOf i (s.setWorkers id n workers) where
  shaped := hs.shaped.setWorkers hn workers
  link hm hp hpn := by
    obtain ⟨m0, hm0, hpar, -, hh⟩ := exists_of_setWorkers hn hm
    obtain ⟨p0, hp0, -, -, hph⟩ := exists_of_setWorkers hn hpn
    rw [hh, hph]
    exact hs.link hm0 (hpar ▸ hp) hp0
  home hm hp := by
    obtain ⟨m0, hm0, hpar, -, hh⟩ := exists_of_setWorkers hn hm
    rw [hh]
    exact hs.home hm0 (hpar ▸ hp)

variable {tiers : Tiers}

/-- Adding a tier at the node of a block is what the holdings record. -/
lemma Indexes.mark (hI : Indexes parentOf own f) (hst : Stands i (f i) current (parentOf h) h)
    (hc : (f i).child current h = some c) (hn : (f i).node c = some n) (worker : KvWorkerId)
    (htiers : tiers.isEmpty = false) :
    Indexes parentOf (own.store worker [h] tiers)
      (Function.update f i ((f i).setWorkers c n (addTiers n.workers worker tiers))) := by
  obtain ⟨m, hm, hne, hh, hw⟩ := hI.child_spec hc
  rw [hn, some_inj] at hm
  subst hm
  have honly {j : Fin nShards} {b : NodeId} {m : Node} (hb : (f j).node b = some m)
      (hbr : b ≠ rootId) (hmh : m.blockHash = h) : j = i ∧ b = c := by
    obtain ⟨rfl, hchild⟩ := (hI.planted i).child_of_stands (hI.planted j) hst hb hbr hmh
    rw [hchild rfl, some_inj] at hc
    exact ⟨rfl, hc⟩
  -- at every other node the block is another one
  have hother {j : Fin nShards} {b : NodeId} {m : Node} (hb : (f j).node b = some m)
      (hbr : b ≠ rootId) (hnot : ¬ (j = i ∧ b = c)) w :
      m.workers.lookup w = (own.store worker [h] tiers w m.blockHash).entry := by
    rw [Holdings.store, if_neg fun hx => hnot (honly hb hbr (mem_singleton.1 hx.2))]
    exact hI.agrees j b m hb hbr w
  refine hI.update ((hI.planted i).setWorkers hn _) ?_
    (fun j hj b m hb hbr => hother hb hbr fun hx => hj hx.1) ?_ ?_
  · intro b m hb hbr w
    rw [node_setWorkers] at hb
    split at hb
    · rw [some_inj] at hb
      subst hb
      simp only [lookup_addTiers n.workers worker w tiers (hw worker), Holdings.store, hh,
        mem_singleton, and_true]
      split
      · next hww => rw [hww, Tiers.entry_of_ne (Tiers.isEmpty_union htiers)]
      · exact hw w
    · next hbc => exact hother hb hbr (fun hx => hbc hx.2) w
  · intro b m hb
    obtain ⟨m', hm', -, -, hmh⟩ := setWorkers_of_exists (addTiers n.workers worker tiers) hn hb
    exact ⟨m', hm', hmh⟩
  · intro w x hx
    by_cases hxh : x = h
    · exact .inr ⟨c, { n with workers := addTiers n.workers worker tiers },
        by rw [node_setWorkers, if_pos rfl], hne, hh.trans hxh.symm⟩
    · refine .inl ?_
      rw [Holdings.Holds, Holdings.store, if_neg fun hmem => hxh (mem_singleton.1 hmem.2)] at hx
      exact hx

variable {worker : KvWorkerId}

/-- A node that was made for a block has a carrier once the block is marked. -/
lemma tidy_mark {t : Tiers} (tiers : Tiers) (ht : s.Tidy [c])
    (hw : n.workers.lookup worker = t.entry) :
    (s.setWorkers c n (addTiers n.workers worker tiers)).Tidy [] := by
  intro id m hm hne hpr
  rw [node_setWorkers] at hm
  split at hm
  · rw [some_inj] at hm
    subst hm
    rw [Node.prunable, Bool.and_eq_true, Map.isEmpty_iff] at hpr
    have hnone := hpr.1 worker
    rw [lookup_addTiers n.workers worker worker tiers hw, if_pos rfl] at hnone
    cases hnone
  · next hid => exact absurd (mem_singleton.1 (ht id m hm hne hpr)) hid

/-- **A store** of a chain that goes on from where the worker stands. -/
theorem Indexes.insertLoop_spec (worker : KvWorkerId) (htiers : tiers.isEmpty = false) :
    ∀ (hs : List Int64) {own : Holdings}
    {f : Fin nShards → TreeState} {current : NodeId} {p : Option Int64} (prev : Option Int64),
    Indexes parentOf own f → (f i).Tidy [] → Follows parentOf p hs →
    (∀ h ∈ hs.head?, Stands i (f i) current p h) →
    Indexes parentOf (own.store worker hs tiers)
        (Function.update f i (insertLoop worker tiers (f i) current prev hs)) ∧
      (insertLoop worker tiers (f i) current prev hs).Tidy []
  | [], own, f, current, p, prev, hI, ht, _, _ => by
    have hown : own.store worker [] tiers = own := by
      funext w h
      exact if_neg fun hmem => not_mem_nil hmem.2
    rw [hown, insertLoop, update_eq_self]
    exact ⟨hI, ht⟩
  | h :: hs, own, f, current, p, prev, hI, ht, hfol, hst => by
    obtain ⟨hp, hfol⟩ := hfol
    have hst := hst h rfl
    rw [← hp] at hst
    obtain ⟨c, s, heq, hchild, hst', ht', hI'⟩ := hI.childFor_spec hst prev ht
    have hself : Function.update f i s i = s := update_self ..
    rw [← hself] at hchild hst' ht'
    obtain ⟨n, hn, hne, hh, hw⟩ := hI'.child_spec hchild
    have hI2 := hI'.mark hst' hchild hn worker htiers
    have ht2 := tidy_mark tiers ht' (hw worker)
    rw [hself] at hI2 ht2 hn
    rw [update_idem] at hI2
    have hself2 := update_self i (s.setWorkers c n (addTiers n.workers worker tiers)) f
    obtain ⟨hI3, ht3⟩ := Indexes.insertLoop_spec worker htiers hs (some h) hI2 (hself2.symm ▸ ht2) hfol
      fun x _ => by
        rw [hself2]
        exact ⟨⟨_, by rw [node_setWorkers, if_pos rfl], by rw [if_neg hne, hh]⟩,
          fun hroot => absurd hroot hne⟩
    rw [hself2] at hI3 ht3
    rw [update_idem, Holdings.store_cons] at hI3
    rw [insertLoop, heq]
    simp only [hn]
    exact ⟨hI3, ht3⟩

/-! ## Removing blocks and workers -/

/-- Shards that are cut according to `own'` represent `own'`. -/
lemma Indexes.cut (hI : Indexes parentOf own f) {f' : Fin nShards → TreeState}
    {e : Fin nShards → Effect} (hshaped : ∀ i, (f' i).Shaped) (hcut : ∀ i, Cut (e i) (f i) (f' i))
    (heff : ∀ i id n, (f i).node id = some n → id ≠ rootId →
      ∀ w, e i id w (own w n.blockHash).entry = (own' w n.blockHash).entry)
    (hle : ∀ w h, own'.Holds w h → own.Holds w h) : Indexes parentOf own' f' where
  planted i :=
    { shaped := hshaped i
      link := fun hn hp hpn => by
        obtain ⟨n, hn0, hh, hpar, -⟩ := (hcut i).node hn
        obtain ⟨pn, hpn0, hph, -⟩ := (hcut i).node hpn
        rw [hh, hph]
        exact (hI.planted i).link hn0 (hpar ▸ hp) hpn0
      home := fun hn hp => by
        obtain ⟨n, hn0, hh, hpar, -⟩ := (hcut i).node hn
        rw [hh]
        exact (hI.planted i).home hn0 (hpar ▸ hp) }
  agrees i id n' hn' hne w := by
    obtain ⟨n, hn, hh, -, hw⟩ := (hcut i).node hn'
    rw [hw, hI.agrees i id n hn hne w, heff i id n hn hne w, hh]
  covers {w h} hw := by
    obtain ⟨i, id, n, hn, hne, rfl⟩ := hI.covers (hle w h hw)
    have hleft : e i id w (n.workers.lookup w) = some (own' w n.blockHash) := by
      rw [hI.agrees i id n hn hne w, heff i id n hn hne w, Tiers.entry_of_ne hw]
    obtain ⟨n', hn'⟩ := (hcut i).kept hn hleft
    obtain ⟨n0, hn0, hh, -⟩ := (hcut i).node hn'
    rw [hn, some_inj] at hn0
    exact ⟨i, id, n', hn', hne, hn0 ▸ hh⟩

lemma Tiers.bind_entry (t tiers : Tiers) :
    (t.entry.bind fun u => (u.difference tiers).entry) = (t.difference tiers).entry := by
  by_cases he : t.isEmpty = true
  · rw [Tiers.entry_eq_none.2 he, Tiers.isEmpty_iff.1 he, Tiers.none_difference, Tiers.entry_none,
      bind_none]
  · rw [Tiers.entry_of_ne (Bool.not_eq_true _ ▸ he), bind_some]

variable {hashes : List Int64}

/-- A removal gives nobody a block. -/
lemma Holdings.holds_of_remove {w : KvWorkerId}
    (hw : (own.remove worker hashes tiers).Holds w h) : own.Holds w h := by
  grind [Holdings.Holds, remove, Tiers.not_isEmpty_iff, Tiers.none_difference]

lemma Indexes.remove (hI : Indexes parentOf own f) (ht : ∀ i, (f i).Tidy []) (o : IterOrder)
    (worker : KvWorkerId) (hashes : List Int64) (tiers : Tiers) :
    Indexes parentOf (own.remove worker hashes tiers) (fun i =>
        if (f i).carriesAny hashes then (f i).remove o worker hashes tiers else f i) ∧
      ∀ i, (if (f i).carriesAny hashes then (f i).remove o worker hashes tiers
        else f i).Tidy [] := by
  have hspec (i : Fin nShards) := remove_spec o worker hashes tiers (hI.planted i).shaped (ht i)
  refine ⟨hI.cut (e := fun i => if (f i).carriesAny hashes then
      dropOn worker tiers (hashes.flatMap fun x => o.order ((f i).carriers x)) else keep)
    (fun i => ?_) (fun i => ?_) (fun i id n hn hne w => ?_)
    (fun w h => Holdings.holds_of_remove), fun i => ?_⟩
  · split
    · exact (hspec i).1
    · exact (hI.planted i).shaped
  · grind [Cut.refl]
  · have hcar : id ∈ (f i).carriers n.blockHash :=
      (hI.planted i).shaped.mem_carriers.2 ⟨hne, n, hn, rfl⟩
    split
    · have hmem : (id ∈ hashes.flatMap fun x => o.order ((f i).carriers x)) ↔
          n.blockHash ∈ hashes := by
        rw [mem_flatMap]
        constructor
        · rintro ⟨x, hx, hid⟩
          obtain ⟨-, m, hm, hmx⟩ := (hI.planted i).shaped.mem_carriers.1 (o.mem_order.1 hid)
          rw [hn, some_inj] at hm
          exact hm ▸ hmx ▸ hx
        · exact fun hx => ⟨_, hx, o.mem_order.2 hcar⟩
      rw [dropOn, Holdings.remove]
      by_cases hx : w = worker ∧ n.blockHash ∈ hashes
      · grind [Tiers.bind_entry]
      · rw [if_neg hx, if_neg fun hy => hx ⟨hy.2, hmem.1 hy.1⟩]
    · next hany =>
      -- a shard that is skipped has no node for any of the blocks
      rw [Holdings.remove, if_neg]
      · rfl
      · rintro ⟨-, hx⟩
        refine hany (any_eq_true.2 ⟨_, hx, ?_⟩)
        rw [isSome_iff_ne_none]
        intro hnone
        rw [carriers, hnone] at hcar
        exact not_mem_nil hcar
  · grind

lemma Indexes.clear (hI : Indexes parentOf own f) (ht : ∀ i, (f i).Tidy []) (o : IterOrder)
    (worker : KvWorkerId) :
    Indexes parentOf (own.clear worker) (fun i => (f i).clearWorker o worker) ∧
      ∀ i, ((f i).clearWorker o worker).Tidy [] := by
  have hspec (i : Fin nShards) := clearWorker_spec o worker (hI.planted i).shaped (ht i)
  refine ⟨hI.cut (fun i => (hspec i).1) (fun i => (hspec i).2.2) (fun i id n hn hne w => ?_)
    (fun w h hw => ?_), fun i => (hspec i).2.1⟩
  · have hmem : id ∈ (o.order (f i).nodes.keys).filter fun id => id ≠ rootId := by
      rw [mem_filter, o.mem_order]
      exact ⟨Map.mem_keys_iff.2 ⟨n, hn⟩, decide_eq_true hne⟩
    rw [clearOn, Holdings.clear]
    by_cases hw : w = worker
    · rw [if_pos ⟨hmem, hw⟩, if_pos hw, Tiers.entry_none]
    · rw [if_neg fun hx => hw hx.2, if_neg hw]
  · rw [Holdings.Holds, Holdings.clear] at hw
    split at hw
    · cases hw
    · exact hw

/-! ## The sharded tree -/

lemma HashTree.shard_map (t : HashTree) (g : TreeState → TreeState) :
    (mk (t.shards.map g)).shard = fun i => g (t.shard i) := by
  funext i
  rw [shard, Fin.getElem_fin, Vector.getElem_map]
  rfl

lemma HashTree.shard_new : new.shard = fun _ => TreeState.new := by
  funext i
  rw [shard, new, Fin.getElem_fin, Vector.getElem_replicate]

/-- The one node of a block is found by its hash, and by no other shard. -/
lemma Indexes.carriers_eq (hI : Indexes parentOf own f) (hn : (f i).node id = some n)
    (hne : id ≠ rootId) (j : Fin nShards) :
    (f j).carriers n.blockHash = if j = i then [id] else [] := by
  have hmem {b : NodeId} (hb : b ∈ (f j).carriers n.blockHash) : j = i ∧ b = id := by
    obtain ⟨hbr, m, hm, hh⟩ := (hI.planted j).shaped.mem_carriers.1 hb
    obtain ⟨rfl, hbid⟩ := (hI.planted j).unique (hI.planted i) hm hn hbr hne hh
    exact ⟨rfl, hbid rfl⟩
  by_cases hj : j = i
  · subst hj
    rw [if_pos rfl]
    refine perm_singleton.1 ((perm_ext_iff_of_nodup
      ((hI.planted j).shaped.nodup_carriers _) (nodup_singleton id)).2 fun b => ?_)
    rw [mem_singleton]
    refine ⟨fun hb => (hmem hb).2, ?_⟩
    rintro rfl
    exact (hI.planted j).shaped.mem_carriers.2 ⟨hne, n, hn, rfl⟩
  · rw [if_neg hj]
    exact eq_nil_iff_forall_not_mem.2 fun b hb => hj (hmem hb).1

variable {t : HashTree}

/-- A shard without the parent hash adds nothing to the scan. -/
lemma HashTree.foldl_scanShard_of_nil {p : Int64} {l : List (Fin nShards)}
    (h : ∀ j ∈ l, (t.shard j).carriers p = []) (acc : Scan) :
    l.foldl (t.scanShard worker p) acc = acc := by
  induction l generalizing acc with
  | nil => rfl
  | cons j l ih =>
    rw [foldl_cons, scanShard]
    have hj : t.shards[j].carriers p = [] := h j mem_cons_self
    simp only [hj]
    exact ih (fun k hk => h k (mem_cons_of_mem _ hk)) acc

/-- The scan over the shards finds the one node of the parent, so an insert goes to its shard. -/
lemma Indexes.routeInsert_eq (hI : Indexes parentOf own t.shard)
    (hn : (t.shard i).node id = some n) (hne : id ≠ rootId) (worker : KvWorkerId) (h : Int64) :
    t.routeInsert worker (some n.blockHash) h = (i, ⟨some n.blockHash, some n.blockHash⟩) := by
  obtain ⟨before, after, hsplit⟩ := append_of_mem (mem_finRange i)
  have hnodup : (before ++ i :: after).Nodup := hsplit ▸ nodup_finRange nShards
  have hnil {j : Fin nShards} (hj : j ≠ i) : (t.shard j).carriers n.blockHash = [] := by
    rw [hI.carriers_eq hn hne, if_neg hj]
  have hone : t.shards[i].carriers n.blockHash = [id] := by
    rw [← shard, hI.carriers_eq hn hne, if_pos rfl]
  have hbefore : ∀ j ∈ before, (t.shard j).carriers n.blockHash = [] := fun j hj =>
    hnil ((nodup_append.1 hnodup).2.2 j hj i mem_cons_self)
  have hafter : ∀ j ∈ after, (t.shard j).carriers n.blockHash = [] := fun j hj =>
    hnil fun hji => (nodup_cons.1 (nodup_append.1 hnodup).2.1).1 (hji ▸ hj)
  have hscan : ∃ owned, (finRange nShards).foldl (t.scanShard worker n.blockHash)
      ⟨0, none, none⟩ = ⟨1, some i, owned⟩ := by
    simp_all [foldl_append, foldl_cons, foldl_scanShard_of_nil, scanShard]
  obtain ⟨owned, hscan⟩ := hscan
  rw [routeInsert]
  simp only [hscan, getD_some]

/-- Within the shard the reverse index gives that node. -/
lemma Indexes.resolveParent_eq (hI : Indexes parentOf own f) (hn : (f i).node id = some n)
    (hne : id ≠ rootId) (o : IterOrder) (worker : KvWorkerId) :
    (f i).resolveParent o worker (some n.blockHash) = id := by
  have hone := hI.carriers_eq hn hne i
  rw [if_pos rfl, carriers] at hone
  rw [resolveParent]
  cases hl : (f i).byHash.lookup n.blockHash with
  | none =>
    rw [hl] at hone
    cases hone
  | some ids =>
    rw [hl, getD_some] at hone
    simp only [hone, IterOrder.order_singleton]

/-- **A store** whose parent is absent or held by the worker is stored. -/
theorem Indexes.insertTiered (hI : Indexes parentOf own t.shard) (ht : ∀ i, (t.shard i).Tidy [])
    (o : IterOrder) (worker : KvWorkerId) {p : Option Int64} (tiers : Tiers)
    (hfol : Follows parentOf p hashes) (hp : ∀ q, p = some q → own.Holds worker q) :
    Indexes parentOf (own.store worker hashes tiers)
        (t.insertTiered o worker p hashes tiers).shard ∧
      ∀ i, ((t.insertTiered o worker p hashes tiers).shard i).Tidy [] := by
  unfold HashTree.insertTiered
  split
  · next hempty =>
    have hown : own.store worker hashes tiers = own := by
      funext w h
      rw [Holdings.store, Tiers.isEmpty_iff.1 hempty, Tiers.union_none, ite_self]
    rw [hown]
    exact ⟨hI, ht⟩
  next hempty =>
  cases hashes with
  | nil =>
    have hown : own.store worker [] tiers = own := by
      funext w h
      exact if_neg fun hmem => not_mem_nil hmem.2
    rw [hown]
    exact ⟨hI, ht⟩
  | cons h hs =>
    have hstands : ∃ i, t.routeInsert worker p h = (i, ⟨p, p⟩) ∧
        Stands i (t.shard i) ((t.shard i).resolveParent o worker p) p h := by
      cases p with
      | none =>
        obtain ⟨r, hr, -⟩ := (hI.planted (shardOf h)).shaped.root
        exact ⟨shardOf h, rfl, ⟨r, hr, (if_pos rfl).symm⟩, fun _ => rfl⟩
      | some q =>
        obtain ⟨i, id, n, hn, hne, rfl⟩ := hI.covers (hp q rfl)
        refine ⟨i, hI.routeInsert_eq hn hne worker h, ?_⟩
        rw [hI.resolveParent_eq hn hne o worker]
        exact ⟨⟨n, hn, (if_neg hne).symm⟩, fun hroot => absurd hroot hne⟩
    obtain ⟨i, hroute, hst⟩ := hstands
    obtain ⟨hI', ht'⟩ := Indexes.insertLoop_spec worker (Bool.not_eq_true _ ▸ hempty)
      (h :: hs) p hI (ht i) hfol fun x hx => mem_some_iff.1 hx ▸ hst
    simp only [hroute]
    rw [shard_set, TreeState.insert, if_neg (by simpa using hempty)]
    refine ⟨hI', fun j => ?_⟩
    by_cases hj : j = i
    · subst hj
      rw [update_self]
      exact ht'
    · grind

lemma Indexes.removeTiered (hI : Indexes parentOf own t.shard) (ht : ∀ i, (t.shard i).Tidy [])
    (o : IterOrder) (worker : KvWorkerId) (hashes : List Int64) (tiers : Tiers) :
    Indexes parentOf (own.remove worker hashes tiers)
        (t.removeTiered o worker hashes tiers).shard ∧
      ∀ i, ((t.removeTiered o worker hashes tiers).shard i).Tidy [] := by
  rw [HashTree.removeTiered]
  split
  · next hempty =>
    have hown : own.remove worker hashes tiers = own := by
      grind [Holdings.remove, Tiers.isEmpty_iff, Tiers.difference_none]
    rw [hown]
    exact ⟨hI, ht⟩
  · rw [shard_map]
    exact hI.remove ht o worker hashes tiers

lemma Indexes.clearWorker (hI : Indexes parentOf own t.shard) (ht : ∀ i, (t.shard i).Tidy [])
    (o : IterOrder) (worker : KvWorkerId) :
    Indexes parentOf (own.clear worker) (t.clearWorker o worker).shard ∧
      ∀ i, ((t.clearWorker o worker).shard i).Tidy [] := by
  rw [HashTree.clearWorker, shard_map]
  exact hI.clear ht o worker

end Sglang.Router
