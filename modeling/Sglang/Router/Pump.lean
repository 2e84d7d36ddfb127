import Sglang.Lib.Runs
import Sglang.Router.Index

/-!
# Removing a worker while the pump is at work

`kv_events/index.rs` couples the tree with the task that feeds it.  The *pump* takes one message
after another from a channel; it drops a message whose worker is not live, and else applies the
events of a batch to the tree one by one and records the batch's number as the worker's cursor.
`remove_worker` runs beside it: it drops the worker from the live set, joins the worker's
subscribers, and clears the tree and the cursor of each of its ranks, holding the lock of the
cursors meanwhile.

The lock of the live set, that of the cursors and that of the tree are three, so the check of the
pump and the writes that follow it are not one step.  `KvEventIndex` has one step for every stretch
of code under one lock, for both tasks, and `Undisturbed` names what must not happen: a rank is
cleared while the pump is between the check and the end of a batch of that rank, or a worker that is
attached is added again with fewer ranks.  Then a removed worker owns nothing
(`removed_owns_nothing`); without the first, what the rest of the batch stores stays
(`batch_outlives_removal`).  Two invariants carry the proof: what is not live and not about to be
cleared is in no batch, no tree and no cursor (`Sound`), and an entry has all the live ranks of its
worker (`Entered`).

The engine-load table and the counts of events are left out: neither is read here.
-/

namespace Sglang.Router
open Lib TreeState List Option HashTree Map

/-! ## Who a write can add -/

namespace TreeState
variable {s : TreeState} {w : KvWorkerId}

/-- `w` carries no block of the shard. -/
def Without (w : KvWorkerId) (s : TreeState) : Prop :=
  ∀ id n, s.node id = some n → id ≠ rootId → n.workers.lookup w = none

lemma without_new : new.Without w := by
  intro id n hn hne
  rw [node_new, if_neg hne] at hn
  cases hn

lemma Without.setWorkers (h : s.Without w) {id : NodeId} {n : Node}
    {workers : Map KvWorkerId Tiers} (hw : id ≠ rootId → workers.lookup w = none) :
    (s.setWorkers id n workers).Without w := by
  intro i m hm hne
  rw [node_setWorkers] at hm
  split at hm
  · grind
  · exact h i m hm hne

lemma Without.createChild (h : s.Without w) (p : NodeId) (hash : Int64) (prev : Option Int64) :
    (s.createChild p hash prev).2.Without w := by
  have hnew {i : NodeId} {n : Node}
      (hn : (s.nodes.insert s.nextId (.newChild hash prev p)).lookup i = some n)
      (hne : i ≠ rootId) : n.workers.lookup w = none := by
    rw [lookup_insert_ite] at hn
    split at hn
    · cases hn
      rfl
    · exact h i n hn hne
  rw [TreeState.createChild]
  intro i n hn hne
  split at hn
  · grind [node, lookup_erase_ite]
  · grind [node, lookup_insert_ite]

lemma lookup_addTiers_of_ne {worker : KvWorkerId} (hw : w ≠ worker)
    (carriers : Map KvWorkerId Tiers) (tiers : Tiers) :
    (addTiers carriers worker tiers).lookup w = carriers.lookup w := by
  grind [addTiers, lookup_insert_ite]

/-- Storing blocks for one worker attributes nothing to another one. -/
lemma Without.insertLoop {worker : KvWorkerId} (hw : w ≠ worker) {tiers : Tiers} :
    ∀ (hs : List Int64) {s : TreeState} (current : NodeId) (prev : Option Int64), s.Without w →
    (insertLoop worker tiers s current prev hs).Without w
  | [], s, current, prev, h => h
  | x :: hs, s, current, prev, h => by
    have hchild : (s.childFor current x prev).2.Without w := by
      rw [childFor]
      split
      · exact h
      · exact h.createChild current x prev
    rw [TreeState.insertLoop]
    split
    · grind
    next c s1 heq =>
    rw [heq] at hchild
    split
    · exact hchild
    next n hn =>
    refine Without.insertLoop hw hs c (some x) (hchild.setWorkers fun hne => ?_)
    rw [lookup_addTiers_of_ne hw]
    exact hchild c n hn hne

lemma Without.detach (h : s.Without w) (c p : NodeId) (hash : Int64) :
    (s.detach c p hash).Without w := by
  intro i n hn hne
  rw [TreeState.detach, node, lookup_erase_ite] at hn
  split at hn
  · cases hn
  split at hn
  · next pn hp =>
    rw [lookup_insert_ite] at hn
    split at hn
    · next hi =>
      cases hn
      exact h p pn hp (hi ▸ hne)
    · exact h i n hn hne
  · exact h i n hn hne

lemma Without.pruneCascadeLoop : ∀ (fuel : Nat) {s : TreeState} (cursor : NodeId), s.Without w →
    (pruneCascadeLoop fuel s cursor).Without w
  | 0, s, cursor, h => h
  | fuel + 1, s, cursor, h => by
    rw [TreeState.pruneCascadeLoop]
    split
    · exact h
    split
    · exact h
    next n hn =>
    split
    · exact h
    next p hp =>
    split
    · dsimp only
      split
      · exact Without.pruneCascadeLoop fuel p (h.detach cursor p n.blockHash)
      · exact h.detach cursor p n.blockHash
    · exact h

lemma Without.removeTarget (h : s.Without w) (worker : KvWorkerId) (tiers : Tiers)
    (id : NodeId) : (removeTarget worker tiers s id).Without w := by
  rw [TreeState.removeTarget]
  split
  · exact h
  next n hn =>
  have hdrop (hne : id ≠ rootId) : (dropTiers n.workers worker tiers).lookup w = none := by
    rw [lookup_dropTiers, h id n hn hne, bind_none, ite_self]
  dsimp only
  split
  · exact (h.setWorkers hdrop).pruneCascadeLoop _ _
  · exact h.setWorkers hdrop

/-- Removing blocks attributes nothing to anyone. -/
lemma Without.remove (h : s.Without w) (o : IterOrder) (worker : KvWorkerId)
    (hashes : List Int64) (tiers : Tiers) : (s.remove o worker hashes tiers).Without w := by
  exact foldlRecOn _ _ h fun s hs id _ => hs.removeTarget worker tiers id

lemma Without.clearTarget {acc : TreeState × List NodeId} (h : acc.1.Without w)
    (worker : KvWorkerId) (id : NodeId) : (clearTarget worker acc id).1.Without w := by
  rw [TreeState.clearTarget]
  split
  · exact h
  next n hn =>
  split
  · exact h
  · refine h.setWorkers fun hne => ?_
    rw [lookup_erase_ite, h id n hn hne, ite_self]

lemma Without.pruneCandidates (h : s.Without w) (ids : List NodeId) :
    (ids.foldl pruneCandidate s).Without w := by
  refine foldlRecOn _ _ h fun s hs id _ => ?_
  rw [pruneCandidate]
  split
  · exact hs.pruneCascadeLoop _ _
  · exact hs

lemma Without.clearWorker (h : s.Without w) (o : IterOrder) (worker : KvWorkerId) :
    (s.clearWorker o worker).Without w := by
  refine Without.pruneCandidates ?_ _
  exact foldlRecOn (motive := fun acc : TreeState × List NodeId => acc.1.Without w) _ _ h
    fun acc hacc id _ => hacc.clearTarget worker id

/-- After a worker was cleared, it carries nothing. -/
lemma without_clearWorker (o : IterOrder) (s : TreeState) (w : KvWorkerId) :
    (s.clearWorker o w).Without w := by
  refine Without.pruneCandidates ?_ _
  -- the ids that are still to be visited are those where `w` may be left
  have hloop : ∀ (ids : List NodeId) (acc : TreeState × List NodeId),
      (∀ id n, acc.1.node id = some n → id ≠ rootId → id ∉ ids → n.workers.lookup w = none) →
      (ids.foldl (clearTarget w) acc).1.Without w := by
    intro ids
    induction ids with
    | nil => exact fun acc h id n hn hne => h id n hn hne not_mem_nil
    | cons i ids ih =>
      intro acc h
      refine ih _ fun id n hn hne hid => ?_
      rw [clearTarget] at hn
      cases hm : acc.1.node i with
      | none =>
        grind
      | some m =>
        grind [node_setWorkers, AList.lookup_erase]
  refine hloop _ (s, []) fun id n hn hne hid => absurd ?_ hid
  rw [mem_filter, o.mem_order]
  exact ⟨mem_keys_iff.2 ⟨n, hn⟩, decide_eq_true hne⟩

end TreeState

namespace HashTree
variable {t : HashTree} {w worker : KvWorkerId}

/-- The tree attributes no block to `w`, on any tier. -/
def Without (w : KvWorkerId) (t : HashTree) : Prop := ∀ i, (t.shard i).Without w

lemma without_new : new.Without w := by
  intro i
  rw [shard_new]
  exact TreeState.without_new

/-- Only events of `w` can add it. -/
lemma Without.apply (h : t.Without w) (o : IterOrder) (hw : w ≠ worker) (e : KvCacheEvent) :
    (t.apply o worker e).Without w := by
  intro i
  cases e with
  | blockStored hashes p medium =>
    rw [HashTree.apply]
    unfold insertTiered
    split
    · exact h i
    split
    · exact h i
    next x hs =>
    rw [shard_set]
    by_cases hi : i = (t.routeInsert worker p x).1
    · rw [hi, Function.update_self, TreeState.insert]
      split
      · exact h _
      · exact Without.insertLoop hw _ _ _ (h _)
    · rw [Function.update_of_ne hi]
      exact h i
  | blockRemoved hashes medium =>
    rw [HashTree.apply, removeTiered]
    split
    · exact h i
    rw [shard_map]
    dsimp only
    split
    · exact (h i).remove o worker hashes _
    · exact h i
  | allBlocksCleared =>
    rw [HashTree.apply, clearWorker, shard_map]
    exact (h i).clearWorker o worker

lemma Without.clearWorker (h : t.Without w) (o : IterOrder) (worker : KvWorkerId) :
    (t.clearWorker o worker).Without w := by
  intro i
  rw [HashTree.clearWorker, shard_map]
  exact (h i).clearWorker o worker

/-- After a clear nothing is attributed to the worker. -/
lemma without_clearWorker (o : IterOrder) (t : HashTree) (w : KvWorkerId) :
    (t.clearWorker o w).Without w := by
  intro i
  rw [clearWorker, shard_map]
  exact TreeState.without_clearWorker o (t.shard i) w

end HashTree

/-! ## The two tasks -/

/-- A message of a subscriber to the pump. -/
inductive WorkerEvent
  | batch (worker : KvWorkerId) (seq : Int64) (events : List KvCacheEvent)
  | load (worker : KvWorkerId)
  | publisherReset (worker : KvWorkerId)

def WorkerEvent.worker : WorkerEvent → KvWorkerId
  | .batch worker _ _ => worker
  | .load worker => worker
  | .publisherReset worker => worker

/-- Where the pump is in its loop. -/
inductive Pump
  | idle
  /-- A message was received. -/
  | received (ev : WorkerEvent)
  /-- Its worker was seen to be live. -/
  | checked (ev : WorkerEvent)
  /-- The cursor let the batch pass; `events` are still to be applied. -/
  | applying (worker : KvWorkerId) (seq : Int64) (events : List KvCacheEvent)

/-- The pump is between the live check and the end of a batch of `w`. -/
def Pump.InBatch (w : KvWorkerId) : Pump → Prop
  | .idle => False
  | .received _ => False
  | .checked (.batch worker _ _) => worker = w
  | .checked (.load _) => False
  | .checked (.publisherReset _) => False
  | .applying worker _ _ => worker = w

instance (w : KvWorkerId) : (p : Pump) → Decidable (p.InBatch w)
  | .idle => isFalse id
  | .received _ => isFalse id
  | .checked (.batch _ _ _) => inferInstanceAs (Decidable (_ = w))
  | .checked (.load _) => isFalse id
  | .checked (.publisherReset _) => isFalse id
  | .applying _ _ _ => inferInstanceAs (Decidable (_ = w))

/-- Where `remove_worker` is, with the ranks it still has to clear. -/
inductive Removal
  /-- The worker's entry was taken. -/
  | entryTaken (url : String) (ids : List KvWorkerId)
  /-- Its ranks were dropped from the live set. -/
  | liveDropped (url : String) (ids : List KvWorkerId)
  /-- Its subscribers were joined. -/
  | joined (ids : List KvWorkerId)
  /-- The lock of the cursors is held. -/
  | clearing (ids : List KvWorkerId)
  /-- The tree was cleared for `id`, its cursor was not removed yet. -/
  | treeCleared (id : KvWorkerId) (ids : List KvWorkerId)

/-- The ranks that are not done. -/
def Removal.left : Removal → List KvWorkerId
  | .entryTaken _ ids => ids
  | .liveDropped _ ids => ids
  | .joined ids => ids
  | .clearing ids => ids
  | .treeCleared id ids => id :: ids

/-- The ranks whose tree is still to be cleared. -/
def Removal.toClear : Removal → List KvWorkerId
  | .entryTaken _ ids => ids
  | .liveDropped _ ids => ids
  | .joined ids => ids
  | .clearing ids => ids
  | .treeCleared _ ids => ids

/-- The rank whose tree is cleared next. -/
def Removal.next : Removal → Option KvWorkerId
  | .clearing (id :: _) => some id
  | _ => none

/-- The lock of the cursors is held. -/
def Removal.locksCursors : Removal → Bool
  | .entryTaken _ _ => false
  | .liveDropped _ _ => false
  | .joined _ => false
  | .clearing _ => true
  | .treeCleared _ _ => true

def eventChannelBuffer : Nat := 1024

/-- The index with its two tasks.  `remove_worker` is called by one task that awaits it, so there is
at most one under way. -/
structure KvEventIndex where
  tree : HashTree
  cursors : Map KvWorkerId Int64
  liveWorkers : Finset KvWorkerId
  /-- The ranks of every attached worker. -/
  workers : Map String (List UInt32)
  /-- The subscribers that run. -/
  subscribers : Finset KvWorkerId
  /-- The channel between the subscribers and the pump. -/
  channel : List WorkerEvent
  pump : Pump
  removal : Option Removal

namespace KvEventIndex

def new : KvEventIndex := ⟨.new, ∅, ∅, ∅, ∅, [], .idle, none⟩

/-- The ids of the ranks of a worker. -/
def rankIds (url : String) (dpRanks : List UInt32) : List KvWorkerId :=
  dpRanks.map fun dpRank => ⟨url, dpRank⟩

/-- The steps of the tasks. -/
inductive Event
  /-- `add_worker`: the ranks become live, the entry is made, the subscribers start. -/
  | addWorker (url : String) (dpRanks : List UInt32)
  /-- A subscriber sends a message. -/
  | publish (ev : WorkerEvent)
  /-- The pump receives a message. -/
  | recv
  /-- The pump checks the live set. -/
  | checkLive
  /-- The pump looks at the message, and for a batch at the cursor. -/
  | dispatch
  /-- The pump applies the next event of a batch. -/
  | applyEvent (o : IterOrder)
  /-- The pump writes the cursor after the last event. -/
  | writeCursor
  /-- `remove_worker` takes the entry of the worker. -/
  | takeEntry (url : String)
  /-- `remove_worker` drops the ranks from the live set. -/
  | dropLive
  /-- `remove_worker` joins the subscribers. -/
  | joinSubscribers
  /-- `remove_worker` takes the lock of the cursors. -/
  | lockCursors
  /-- `remove_worker` clears the tree for the next rank. -/
  | clearTree (o : IterOrder)
  /-- `remove_worker` removes the cursor of this rank. -/
  | removeCursor
  /-- `remove_worker` returns. -/
  | finishRemoval

/-- The pump can take the lock of the cursors. -/
def cursorsFree (s : KvEventIndex) : Bool := !s.removal.any Removal.locksCursors

/-- What the pump does with a message that passed the live check. -/
def dispatch (s : KvEventIndex) : WorkerEvent → KvEventIndex
  | .load _ => { s with pump := .idle }
  | .publisherReset worker => { s with cursors := s.cursors.erase worker, pump := .idle }
  | .batch worker seq events =>
    match s.cursors.lookup worker with
    | some last =>
      if seq ≤ last then { s with pump := .idle }
      else { s with pump := .applying worker seq events }
    | none => { s with pump := .applying worker seq events }

/-- One step; `none` if the task it belongs to is not there. -/
def step (s : KvEventIndex) : Event → Option KvEventIndex
  | .addWorker url dpRanks =>
    some { s with
      liveWorkers := s.liveWorkers ∪ (rankIds url dpRanks).toFinset
      workers := s.workers.insert url dpRanks
      subscribers := s.subscribers ∪ (rankIds url dpRanks).toFinset }
  | .publish ev =>
    if ev.worker ∈ s.subscribers ∧ s.channel.length < eventChannelBuffer then
      some { s with channel := s.channel ++ [ev] }
    else none
  | .recv =>
    match s.pump, s.channel with
    | .idle, ev :: rest => some { s with pump := .received ev, channel := rest }
    | _, _ => none
  | .checkLive =>
    match s.pump with
    | .received ev =>
      if ev.worker ∈ s.liveWorkers then some { s with pump := .checked ev }
      else some { s with pump := .idle }
    | _ => none
  | .dispatch =>
    match s.pump with
    | .checked ev => if s.cursorsFree then some (s.dispatch ev) else none
    | _ => none
  | .applyEvent o =>
    match s.pump with
    | .applying worker seq (e :: events) =>
      some { s with tree := s.tree.apply o worker e, pump := .applying worker seq events }
    | _ => none
  | .writeCursor =>
    match s.pump with
    | .applying worker seq [] =>
      if s.cursorsFree then
        some { s with cursors := s.cursors.insert worker seq, pump := .idle }
      else none
    | _ => none
  | .takeEntry url =>
    match s.removal, s.workers.lookup url with
    | none, some dpRanks =>
      some { s with
        workers := s.workers.erase url
        removal := some (.entryTaken url (rankIds url dpRanks)) }
    | none, none => some s
    | some _, _ => none
  | .dropLive =>
    match s.removal with
    | some (.entryTaken url ids) =>
      some { s with
        liveWorkers := s.liveWorkers \ ids.toFinset
        removal := some (.liveDropped url ids) }
    | _ => none
  | .joinSubscribers =>
    match s.removal with
    | some (.liveDropped url ids) =>
      some { s with
        subscribers := s.subscribers.filter fun id => id.url ≠ url
        removal := some (.joined ids) }
    | _ => none
  | .lockCursors =>
    match s.removal with
    | some (.joined ids) => some { s with removal := some (.clearing ids) }
    | _ => none
  | .clearTree o =>
    match s.removal with
    | some (.clearing (id :: ids)) =>
      some { s with tree := s.tree.clearWorker o id, removal := some (.treeCleared id ids) }
    | _ => none
  | .removeCursor =>
    match s.removal with
    | some (.treeCleared id ids) =>
      some { s with cursors := s.cursors.erase id, removal := some (.clearing ids) }
    | _ => none
  | .finishRemoval =>
    match s.removal with
    | some (.clearing []) => some { s with removal := none }
    | _ => none

/-! ## A removed worker -/

/-- There is no entry for `url`, and no removal still has to clear a rank of it.  So it is from the
return of `remove_worker` for `url` until it is added again. -/
def Removed (s : KvEventIndex) (url : String) : Prop :=
  s.workers.lookup url = none ∧ ∀ r ∈ s.removal, ∀ id ∈ r.left, id.url ≠ url

/-- The tree attributes nothing to `w`, and there is no cursor for it. -/
def OwnsNothing (s : KvEventIndex) (w : KvWorkerId) : Prop :=
  s.tree.Without w ∧ s.cursors.lookup w = none

/-- A rank is not cleared while the pump is in a batch of it, and a worker that is added again
before it was removed keeps all its ranks: the new entry takes the place of the old one, while the
old ranks stay live. -/
def Undisturbed (s : KvEventIndex) : Event → Prop
  | .clearTree _ => ∀ id ∈ s.removal.bind Removal.next, ¬ s.pump.InBatch id
  | .addWorker url dpRanks => ∀ old ∈ s.workers.lookup url, old ⊆ dpRanks
  | _ => True

instance (s : KvEventIndex) : (e : Event) → Decidable (s.Undisturbed e)
  | .clearTree _ => inferInstanceAs (Decidable (∀ id ∈ s.removal.bind Removal.next, _))
  | .addWorker url _ => inferInstanceAs (Decidable (∀ old ∈ s.workers.lookup url, _))
  | .publish _ | .recv | .checkLive | .dispatch | .applyEvent _ | .writeCursor
  | .takeEntry _ | .dropLive | .joinSubscribers | .lockCursors | .removeCursor | .finishRemoval =>
    isTrue trivial

/-- What holds of a worker that is not live and not to be cleared any more. -/
structure Quiet (s : KvEventIndex) (w : KvWorkerId) : Prop where
  pump : ¬ s.pump.InBatch w
  tree : s.tree.Without w
  cursor : s.cursors.lookup w = none ∨ ∃ ids, s.removal = some (.treeCleared w ids)

/-- A worker that is not live is quiet, unless it is about to be cleared. -/
def Sound (s : KvEventIndex) : Prop :=
  ∀ w, w ∉ s.liveWorkers → (∀ r ∈ s.removal, w ∉ r.toClear) → s.Quiet w

lemma sound_new : new.Sound := fun _ _ _ => ⟨id, without_new, .inl rfl⟩

variable {s s' : KvEventIndex} {w : KvWorkerId}

/-- A worker that is neither live nor to be cleared is quiet: nothing is left of it and the pump is
not at a batch of it. -/
lemma Sound.quiet (h : s.Sound) (hlive : w ∉ s.liveWorkers) {r : Removal} (hr : s.removal = some r)
    (hw : w ∉ r.toClear) : s.Quiet w :=
  h w hlive (by rw [hr]; exact fun r' hr' => mem_some_iff.1 hr' ▸ hw)

/-- The pump, in a batch of another worker, leaves a quiet one quiet. -/
lemma Quiet.dispatch {ev : WorkerEvent} (h : s.Quiet w) (hp : s.pump = .checked ev) :
    (s.dispatch ev).Quiet w := by
  have hne := h.pump
  rw [hp] at hne
  cases ev with
  | load worker => exact ⟨id, h.tree, h.cursor⟩
  | publisherReset worker =>
    refine ⟨id, h.tree, h.cursor.imp_left fun hc => ?_⟩
    change (s.cursors.erase worker).lookup w = none
    rw [lookup_erase_ite, hc, ite_self]
  | batch worker seq events =>
    rw [KvEventIndex.dispatch]
    split
    · split
      · exact ⟨id, h.tree, h.cursor⟩
      · exact ⟨hne, h.tree, h.cursor⟩
    · exact ⟨hne, h.tree, h.cursor⟩

/-- A dispatch changes the tree, not who is attached. -/
lemma frame_dispatch (s : KvEventIndex) (ev : WorkerEvent) :
    (s.dispatch ev).liveWorkers = s.liveWorkers ∧ (s.dispatch ev).removal = s.removal ∧
      (s.dispatch ev).workers = s.workers := by
  cases ev with
  | load worker => exact ⟨rfl, rfl, rfl⟩
  | publisherReset worker => exact ⟨rfl, rfl, rfl⟩
  | batch worker seq events =>
    grind [dispatch]

/-- A step of a removal that writes neither tree nor cursors. -/
lemma Quiet.of_eq (h : s.Quiet w) (hp : s'.pump = s.pump) (ht : s'.tree = s.tree)
    (hc : s'.cursors = s.cursors) (hr : ∀ ids, s.removal ≠ some (.treeCleared w ids)) :
    s'.Quiet w := by
  refine ⟨hp ▸ h.pump, ht ▸ h.tree, .inl (hc ▸ h.cursor.resolve_right ?_)⟩
  rintro ⟨ids, hids⟩
  exact hr ids hids

/-- **One step.**  A worker that is quiet stays so until it is live again. -/
theorem Sound.step {e : Event} (h : s.Sound) (hok : s.Undisturbed e) (hs : s.step e = some s') :
    s'.Sound := by
  intro w hlive hclear
  cases e with
  | addWorker url dpRanks =>
    cases hs
    obtain ⟨hp, ht, hc⟩ := h w (fun hw => hlive (Finset.mem_union_left _ hw)) hclear
    exact ⟨hp, ht, hc⟩
  | publish ev =>
    rw [KvEventIndex.step] at hs
    split at hs
    · cases hs
      obtain ⟨hp, ht, hc⟩ := h w hlive hclear
      exact ⟨hp, ht, hc⟩
    · cases hs
  | recv =>
    rw [KvEventIndex.step] at hs
    split at hs
    · cases hs
      obtain ⟨-, ht, hc⟩ := h w hlive hclear
      exact ⟨id, ht, hc⟩
    · cases hs
  | checkLive =>
    rw [KvEventIndex.step] at hs
    split at hs
    · next ev _ =>
      split at hs
      · next hev =>
        cases hs
        obtain ⟨-, ht, hc⟩ := h w hlive hclear
        refine ⟨fun hin => hlive ?_, ht, hc⟩
        cases ev with
        | batch worker seq events => exact hin ▸ hev
        | load worker => exact hin.elim
        | publisherReset worker => exact hin.elim
      · cases hs
        obtain ⟨-, ht, hc⟩ := h w hlive hclear
        exact ⟨id, ht, hc⟩
    · cases hs
  | dispatch =>
    rw [KvEventIndex.step] at hs
    split at hs
    · next ev hp =>
      split at hs
      · cases hs
        obtain ⟨hl, hr, -⟩ := frame_dispatch s ev
        rw [hl] at hlive
        rw [hr] at hclear
        exact (h w hlive hclear).dispatch hp
      · cases hs
    · cases hs
  | applyEvent o =>
    rw [KvEventIndex.step] at hs
    split at hs
    · next worker seq e events hp =>
      cases hs
      obtain ⟨hin, ht, hc⟩ := h w hlive hclear
      rw [hp] at hin
      exact ⟨hin, ht.apply o (fun hw => hin hw.symm) e, hc⟩
    · cases hs
  | writeCursor =>
    rw [KvEventIndex.step] at hs
    split at hs
    · next worker seq hp =>
      split at hs
      · cases hs
        obtain ⟨hin, ht, hc⟩ := h w hlive hclear
        rw [hp] at hin
        refine ⟨id, ht, hc.imp_left fun hc => ?_⟩
        rw [lookup_insert_ite, if_neg fun hw => hin hw.symm, hc]
      · cases hs
    · cases hs
  | takeEntry url =>
    rw [KvEventIndex.step] at hs
    split at hs
    · next dpRanks hr _ =>
      cases hs
      have hquiet := h w hlive (by rw [hr]; exact nofun)
      exact hquiet.of_eq rfl rfl rfl fun ids hids => (by cases hr.symm.trans hids)
    · cases hs
      exact h w hlive hclear
    · cases hs
  | dropLive =>
    rw [KvEventIndex.step] at hs
    split at hs
    · next url ids hr =>
      cases hs
      have hids : w ∉ ids := hclear (.liveDropped url ids) rfl
      have hlive' : w ∉ s.liveWorkers := fun hw =>
        hlive (Finset.mem_sdiff.2 ⟨hw, fun hw' => hids (List.mem_toFinset.1 hw')⟩)
      have hquiet := h.quiet hlive' hr hids
      exact hquiet.of_eq rfl rfl rfl fun ids' hids' => (by cases hr.symm.trans hids')
    · cases hs
  | joinSubscribers =>
    rw [KvEventIndex.step] at hs
    split at hs
    · next url ids hr =>
      cases hs
      have hids : w ∉ ids := hclear (.joined ids) rfl
      have hquiet := h.quiet hlive hr hids
      exact hquiet.of_eq rfl rfl rfl fun ids' hids' => (by cases hr.symm.trans hids')
    · cases hs
  | lockCursors =>
    rw [KvEventIndex.step] at hs
    split at hs
    · next ids hr =>
      cases hs
      have hids : w ∉ ids := hclear (.clearing ids) rfl
      have hquiet := h.quiet hlive hr hids
      exact hquiet.of_eq rfl rfl rfl fun ids' hids' => (by cases hr.symm.trans hids')
    · cases hs
  | clearTree o =>
    rw [KvEventIndex.step] at hs
    split at hs
    · next id ids hr =>
      cases hs
      have hids : w ∉ ids := hclear (.treeCleared id ids) rfl
      by_cases hw : w = id
      · subst hw
        exact ⟨hok w (by rw [hr]; rfl), without_clearWorker o s.tree w, .inr ⟨ids, rfl⟩⟩
      · have hnot : w ∉ id :: ids := fun hmem => (mem_cons.1 hmem).elim hw hids
        obtain ⟨hp, ht, hc⟩ := h.quiet hlive hr hnot
        refine ⟨hp, ht.clearWorker o id, .inl (hc.resolve_right ?_)⟩
        rintro ⟨ids', hids'⟩
        cases hr.symm.trans hids'
    · cases hs
  | removeCursor =>
    rw [KvEventIndex.step] at hs
    split at hs
    · next id ids hr =>
      cases hs
      have hids : w ∉ ids := hclear (.clearing ids) rfl
      obtain ⟨hp, ht, hc⟩ := h.quiet hlive hr hids
      refine ⟨hp, ht, .inl ?_⟩
      rw [lookup_erase_ite]
      split
      · rfl
      · grind
    · cases hs
  | finishRemoval =>
    rw [KvEventIndex.step] at hs
    split at hs
    · next hr =>
      cases hs
      have hquiet := h.quiet hlive hr not_mem_nil
      exact hquiet.of_eq rfl rfl rfl fun ids' hids' => (by cases hr.symm.trans hids')
    · cases hs

/-- In every undisturbed run each worker is live, still to be cleared, or quiet. -/
lemma sound_of_run (h : Run step Undisturbed new s) : s.Sound :=
  h.invariant sound_new fun _ _ _ hs hok hstep => hs.step hok hstep

/-! ## The live ranks of a worker

`remove_worker` drops and clears the ranks of the entry it takes, so it must be seen that these are
all the ranks that are live. -/

/-- A live rank is in the entry of its worker, or among those of an entry just taken. -/
def Entered (s : KvEventIndex) : Prop :=
  ∀ w ∈ s.liveWorkers, (∃ ranks, s.workers.lookup w.url = some ranks ∧ w.dpRank ∈ ranks) ∨
    ∃ url ids, s.removal = some (.entryTaken url ids) ∧ w ∈ ids

/-- The ids of a worker are its ranks, all with its URL. -/
lemma mem_rankIds {url : String} {ranks : List UInt32} :
    w ∈ rankIds url ranks ↔ w.url = url ∧ w.dpRank ∈ ranks := by
  rw [rankIds, List.mem_map]
  constructor
  · rintro ⟨rank, hrank, rfl⟩
    exact ⟨rfl, hrank⟩
  · rintro ⟨rfl, hrank⟩
    exact ⟨w.dpRank, hrank, rfl⟩

/-- A step that leaves the entries, the live set and an entry just taken. -/
lemma Entered.of_eq (h : s.Entered) (hw : s'.workers = s.workers)
    (hl : s'.liveWorkers = s.liveWorkers)
    (hr : ∀ url ids, s.removal = some (.entryTaken url ids) →
      s'.removal = some (.entryTaken url ids)) : s'.Entered := by
  intro w hlive
  rw [hw]
  refine (h w (hl ▸ hlive)).imp_right ?_
  rintro ⟨url, ids, htaken, hmem⟩
  exact ⟨url, ids, hr url ids htaken, hmem⟩

theorem Entered.step {e : Event} (h : s.Entered) (hok : s.Undisturbed e)
    (hs : s.step e = some s') : s'.Entered := by
  cases e with
  | addWorker url dpRanks =>
    cases hs
    intro w hlive
    rw [lookup_insert_ite]
    split
    · next hurl =>
      refine (Finset.mem_union.1 hlive).elim (fun hold => ?_) fun hnew => ?_
      · refine (h w hold).imp_left ?_
        rintro ⟨ranks, hranks, hmem⟩
        exact ⟨dpRanks, rfl, hok ranks (hurl ▸ hranks) hmem⟩
      · exact .inl ⟨dpRanks, rfl, (mem_rankIds.1 (mem_toFinset.1 hnew)).2⟩
    · next hurl =>
      refine h w ((Finset.mem_union.1 hlive).resolve_right fun hnew => hurl ?_)
      exact (mem_rankIds.1 (mem_toFinset.1 hnew)).1
  | takeEntry url =>
    rw [KvEventIndex.step] at hs
    split at hs
    · next dpRanks hr hentry =>
      cases hs
      intro w hlive
      rw [lookup_erase_ite]
      obtain ⟨ranks, hranks, hmem⟩ | ⟨url', ids, htaken, -⟩ := h w hlive
      · split
        · next hurl =>
          rw [hurl, hentry] at hranks
          cases hranks
          exact .inr ⟨url, _, rfl, mem_rankIds.2 ⟨hurl, hmem⟩⟩
        · exact .inl ⟨ranks, hranks, hmem⟩
      · cases hr.symm.trans htaken
    · cases hs
      exact h
    · cases hs
  | dropLive =>
    rw [KvEventIndex.step] at hs
    split at hs
    · next url ids hr =>
      cases hs
      intro w hlive
      obtain ⟨hold, hnot⟩ := Finset.mem_sdiff.1 hlive
      refine .inl ((h w hold).resolve_right ?_)
      rintro ⟨url', ids', htaken, hmem⟩
      cases hr.symm.trans htaken
      exact hnot (mem_toFinset.2 hmem)
    · cases hs
  | dispatch =>
    rw [KvEventIndex.step] at hs
    split at hs
    · next ev _ =>
      split at hs
      · cases hs
        obtain ⟨hl, hr, hw⟩ := frame_dispatch s ev
        exact h.of_eq hw hl fun url ids htaken => hr.trans htaken
      · cases hs
    · cases hs
  | _ =>
    -- The other steps of `remove_worker` are taken when the ranks are dropped already.
    rw [KvEventIndex.step] at hs
    refine h.of_eq ?_ ?_ fun url ids htaken => ?_ <;> grind

/-- In every undisturbed run the live ranks are those of attached workers, or of one that is being
removed. -/
lemma entered_of_run (h : Run step Undisturbed new s) : s.Entered :=
  h.invariant (fun w hw => absurd hw (Finset.notMem_empty w)) fun _ _ _ hs hok hstep =>
    hs.step hok hstep

/-- A removed worker has no live rank. -/
lemma Entered.notMem_liveWorkers (h : s.Entered) {url : String} (hurl : s.Removed url)
    (dpRank : UInt32) : ⟨url, dpRank⟩ ∉ s.liveWorkers := by
  intro hlive
  obtain ⟨ranks, hranks, -⟩ | ⟨url', ids, htaken, hmem⟩ := h _ hlive
  · cases hurl.1.symm.trans hranks
  · exact hurl.2 _ htaken _ hmem rfl

end KvEventIndex

open KvEventIndex

/-- **A removed worker owns nothing**, whatever its rank, in every interleaving of the pump with
`remove_worker` in which no rank is cleared while the pump is between the live check and the end of
a batch of it, and no worker that is attached is added again with fewer ranks. -/
theorem removed_owns_nothing {s : KvEventIndex}
    (hrun : Run KvEventIndex.step KvEventIndex.Undisturbed .new s) {url : String}
    (hurl : s.Removed url) (dpRank : UInt32) : s.OwnsNothing ⟨url, dpRank⟩ := by
  have hlive := (entered_of_run hrun).notMem_liveWorkers hurl dpRank
  have hleft : ∀ r ∈ s.removal, ⟨url, dpRank⟩ ∉ r.left := fun r hr hmem => hurl.2 r hr _ hmem rfl
  have hclear : ∀ r ∈ s.removal, ⟨url, dpRank⟩ ∉ r.toClear := by
    intro r hr hmem
    refine hleft r hr ?_
    cases r with
    | treeCleared id ids => exact mem_cons_of_mem _ hmem
    | _ => exact hmem
  obtain ⟨-, ht, hc⟩ := sound_of_run hrun _ hlive hclear
  refine ⟨ht, hc.resolve_right ?_⟩
  rintro ⟨ids, hids⟩
  exact hleft _ hids mem_cons_self

/-- The pump finishes a batch of the second rank, the worker is added once more with a third rank,
then it is removed. -/
def removedAfterBatch : List Event :=
  [.addWorker "a" [0, 1], .publish (.batch ⟨"a", 1⟩ 1 [.blockStored [7] none none]), .recv,
    .checkLive, .dispatch, .applyEvent .inOrder, .writeCursor, .addWorker "a" [0, 1, 2],
    .takeEntry "a", .dropLive, .joinSubscribers, .lockCursors, .clearTree .inOrder, .removeCursor,
    .clearTree .inOrder, .removeCursor, .clearTree .inOrder, .removeCursor, .finishRemoval]

/-- Then it owns nothing. -/
theorem removed_owns_nothing_afterBatch : ∃ s : KvEventIndex,
    Run KvEventIndex.step KvEventIndex.Undisturbed .new s ∧ s.Removed "a" ∧
      ∀ dpRank, s.OwnsNothing ⟨"a", dpRank⟩ := by
  refine Run.exists_of removedAfterBatch
    (p := fun s => s.workers.lookup "a" = none ∧ s.removal = none) (by decide +kernel)
    (by decide +kernel) fun s hrun hs => ?_
  have hremoved : s.Removed "a" := ⟨hs.1, by rw [hs.2]; exact nofun⟩
  exact ⟨hremoved, removed_owns_nothing hrun hremoved⟩

/-- The worker is removed after the pump has checked that it is live. -/
def removedInBatch : List Event :=
  [.addWorker "a" [0], .publish (.batch ⟨"a", 0⟩ 1 [.blockStored [7] none none]), .recv, .checkLive,
    .takeEntry "a", .dropLive, .joinSubscribers, .lockCursors, .clearTree .inOrder, .removeCursor,
    .finishRemoval, .dispatch, .applyEvent .inOrder, .writeCursor]

/-- Then what the batch stores stays attributed to it, and its cursor stays. -/
theorem batch_outlives_removal : ∃ s : KvEventIndex,
    Run KvEventIndex.step (fun _ _ => True) .new s ∧ s.Removed "a" ∧
      ¬ s.pump.InBatch ⟨"a", 0⟩ ∧
      (s.tree.matchPrefix none [7]).tiers.lookup ⟨"a", 0⟩ = some .device ∧
      ¬ s.tree.Without ⟨"a", 0⟩ ∧ s.cursors.lookup ⟨"a", 0⟩ = some 1 := by
  refine Run.exists_of removedInBatch
    (p := fun s => s.workers.lookup "a" = none ∧ s.removal = none ∧
      ¬ s.pump.InBatch ⟨"a", 0⟩ ∧
      (s.tree.matchPrefix none [7]).tiers.lookup ⟨"a", 0⟩ = some .device ∧
      (∃ n ∈ (s.tree.shard (shardOf 7)).node 1, (n.workers.lookup ⟨"a", 0⟩).isSome) ∧
      s.cursors.lookup ⟨"a", 0⟩ = some 1) (by decide +kernel) (by decide +kernel) ?_
  rintro s - ⟨hentry, hnone, hp, hmatch, ⟨n, hn, hheld⟩, hcursor⟩
  refine ⟨⟨hentry, by rw [hnone]; exact nofun⟩, hp, hmatch, fun hout => ?_, hcursor⟩
  rw [hout _ 1 n hn (by decide)] at hheld
  cases hheld

end Sglang.Router
