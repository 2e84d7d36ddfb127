import Sglang.Beam.Group

/-!
# Every slot of a beam group is freed once

The slots a group holds are those its rows name and the orphans it has staged, each once.  The two
lists are disjoint because a staged orphan was left out of the windows of that time, and later
windows only pass on what is there or take fresh slots.

* `Sound.next`: no operation frees a slot that it does not hold or that a row still names.
* `slots_freed_once`: so no step of a run faults, and a retired group has given back all its slots
  and rows, and none of the prompt's.
-/

namespace Sglang.Beam
open Lib List Option World Staged Nat

variable {w : World}

/-- The slots the rows name or that await their commit. -/
def World.named (w : World) : List ℕ :=
  w.windows.flatten.dedup ++ w.pendingOrphans.flatMap orphans

/-- What holds also between the parts of a teardown. -/
structure World.Books (w : World) : Prop where
  nodup : w.slots.Nodup
  perm : w.slots.Perm w.named
  prompt : ∀ s ∈ w.prompt, s ∉ w.slots ∧ s ∉ w.freed
  rows : w.rows = w.memberRows.getD []
  rowsNodup : w.rows.Nodup

/-- What holds between steps. -/
structure World.Sound (w : World) : Prop extends w.Books where
  le : w.promptLen ≤ w.allocatedLen
  width : w.memberRows.isSome → w.windows.length = w.beamWidth
  count : w.memberRows.isSome →
    w.slots.length + w.slotsFreed = w.beamWidth * (w.allocatedLen - w.promptLen)
  idle : w.memberRows = none → w.windows = [] ∧ w.pendingOrphans = [] ∧ w.allocatedLen = w.promptLen
  unspawned : w.numGenerated = 0 → w.memberRows = none ∧ (w.finished ∨ w.slotsFreed = 0)
  retired : w.retired → w.finished ∧ w.memberRows = none
  tail : w.inTail → w.memberRows = none → w.retired

namespace World

/-! ## Freeing -/

/-- Slots that are held and that no row names can be freed. -/
lemma free_of_perm {l rest : List ℕ} (hn : w.slots.Nodup) (hp : w.slots.Perm (l ++ rest))
    (hr : ∀ s ∈ w.windows.flatten, s ∈ rest) :
    ∃ slots, w.free l = .ok { w with slots := slots, freed := w.freed ++ l } ∧ slots.Perm rest := by
  have hd : (l ++ rest).Nodup := hp.nodup_iff.1 hn
  have hdis : ∀ s ∈ rest, s ∉ l := fun s hs hl => disjoint_of_nodup_append hd hl hs
  refine ⟨w.slots.filter (· ∉ l), if_pos ?_, ?_⟩
  · grind
  · have h := hp.filter (fun s => decide (s ∉ l))
    have hl : l.filter (fun s => decide (s ∉ l)) = [] := filter_eq_nil_iff.2 (by simp)
    have hrest : rest.filter (fun s => decide (s ∉ l)) = rest :=
      filter_eq_self.2 (by simpa using hdis)
    rwa [filter_append, hl, hrest] at h

/-- The staged entries are disjoint from each other and from the windows, so they can be freed one
by one. -/
lemma reclaimEach_of_perm : ∀ {es : List Staged} {rest : List ℕ} {w : World}, w.slots.Nodup →
    w.slots.Perm (es.flatMap orphans ++ rest) → (∀ s ∈ w.windows.flatten, s ∈ rest) →
    ∃ slots, w.reclaimEach es = .ok { w with
        slots := slots
        freed := w.freed ++ es.flatMap orphans
        slotsFreed := w.slotsFreed + (es.flatMap orphans).length } ∧ slots.Perm rest
  | [], _, w, _, hp, _ => ⟨w.slots, by simp [reclaimEach], hp⟩
  | e :: es, rest, w, hn, hp, hr => by
    rw [flatMap_cons, append_assoc] at hp
    by_cases he : e.orphans = []
    · rw [he] at hp
      obtain ⟨slots, h, hs⟩ := reclaimEach_of_perm hn hp hr
      exact ⟨slots, by simp [reclaimEach, he, h], hs⟩
    · obtain ⟨slots, h, hs⟩ := free_of_perm
        (w := { w with slotsFreed := w.slotsFreed + e.orphans.length }) hn hp
        fun s hs => mem_append_right _ (hr s hs)
      have hn' : slots.Nodup := hs.nodup_iff.2 (hp.nodup_iff.1 hn).of_append_right
      obtain ⟨slots', h', hs'⟩ := reclaimEach_of_perm
        (w := { w with
          slots := slots
          freed := w.freed ++ e.orphans
          slotsFreed := w.slotsFreed + e.orphans.length }) hn' hs hr
      refine ⟨slots', ?_, hs'⟩
      simp [reclaimEach, he, h, Bind.bind, Except.bind, h', Nat.add_assoc]

/-- The staged orphans that `_reclaim_orphans` leaves. -/
def later (w : World) (upToTick : Option ℕ) : List Staged :=
  w.pendingOrphans.filter fun e => ¬ upToTick.all fun t => decide (e.tick ≤ t)

/-- What `_reclaim_orphans` makes of a group. -/
def reclaimed (w : World) (upToTick : Option ℕ) (slots freed : List ℕ) (n : ℕ) : World :=
  { w with
    pendingOrphans := w.later upToTick
    slots := slots
    freed := freed
    slotsFreed := w.slotsFreed + n }

/-- A commit frees the orphans of its tick, each once. -/
lemma Books.reclaim (h : w.Books) (t : Option ℕ) : ∃ slots freed n,
    w.reclaimOrphans t = .ok (w.reclaimed t slots freed n) ∧ (w.reclaimed t slots freed n).Books ∧
      slots.length + n = w.slots.length := by
  let due := w.pendingOrphans.filter fun e => t.all fun t => decide (e.tick ≤ t)
  have hp : w.slots.Perm (due.flatMap orphans ++
      (w.windows.flatten.dedup ++ (w.later t).flatMap orphans)) := by
    have hsplit : w.pendingOrphans.Perm (due ++ w.later t) := by
      have := filter_append_perm (fun e : Staged => t.all fun t => decide (e.tick ≤ t))
        w.pendingOrphans
      simpa [due, later] using this.symm
    have hflat := hsplit.flatMap_right orphans
    rw [flatMap_append] at hflat
    refine h.perm.trans ((hflat.append_left _).trans ?_)
    rw [← append_assoc, ← append_assoc]
    exact perm_append_comm.append_right _
  obtain ⟨slots, hs, hperm⟩ := reclaimEach_of_perm (w := { w with pendingOrphans := w.later t })
    h.nodup hp fun s hs => mem_append_left _ (mem_dedup.2 hs)
  have hd := hp.nodup_iff.1 h.nodup
  have hlen := hp.length_eq
  refine ⟨slots, _, _, hs, ⟨hperm.nodup_iff.2 hd.of_append_right, hperm, fun s hsp => ?_, h.rows,
    h.rowsNodup⟩, ?_⟩
  · have hns := (h.prompt s hsp).1
    rw [hp.mem_iff, mem_append, not_or] at hns
    refine ⟨fun hm => hns.2 (hperm.mem_iff.1 hm), fun hm => ?_⟩
    exact (mem_append.1 hm).elim (h.prompt s hsp).2 hns.1
  · rw [length_append, ← hperm.length_eq] at hlen
    exact (Nat.add_comm _ _).trans hlen.symm

lemma Sound.slots_eq_nil (h : w.Sound) (hm : w.memberRows = none) : w.slots = [] := by
  simpa [named, h.idle hm] using h.perm

lemma Sound.reclaim (h : w.Sound) (t : Option ℕ) : ∃ slots freed n,
    w.reclaimOrphans t = .ok (w.reclaimed t slots freed n) ∧
      (w.reclaimed t slots freed n).Sound := by
  obtain ⟨slots, freed, n, hr, hb, hlen⟩ := h.toBooks.reclaim t
  refine ⟨slots, freed, n, hr, hb, h.le, h.width, fun hm => ?_, fun hm => ?_, fun hz => ?_,
    h.retired, h.tail⟩
  · grind [h.count, reclaimed]
  · simp [reclaimed, later, h.idle hm]
  · grind [h.unspawned, h.slots_eq_nil, reclaimed]

/-! ## Teardown -/

/-- What `free_member_rows` makes of a group. -/
def torn (w : World) (slots freed : List ℕ) : World :=
  { w with
    slots := slots
    freed := freed
    rows := []
    allocatedLen := w.promptLen
    memberRows := none
    windows := [] }

lemma freeRows_all {l : List ℕ} (hl : w.rows = l) (h : l.Nodup) :
    w.freeRows l = .ok { w with rows := [] } := by
  simp [freeRows, h, hl]

/-- Tearing the rows down frees all slots and all rows. -/
lemma Sound.freeMemberRows (h : w.Sound) : ∃ slots freed,
    w.freeMemberRows = .ok (w.torn slots freed) ∧ (w.torn slots freed).Books := by
  unfold World.freeMemberRows
  cases hm : w.memberRows with
  | none =>
    obtain ⟨hw, hp, hl⟩ := h.idle hm
    have : w.torn w.slots w.freed = w := by
      have := h.rows
      rcases w with ⟨⟨⟩⟩
      simp_all [torn]
    exact ⟨w.slots, w.freed, by rw [this], this ▸ h.toBooks⟩
  | some rows =>
    obtain rfl : w.rows = rows := by rw [h.rows, hm]; rfl
    by_cases hl : w.promptLen < w.allocatedLen
    · obtain ⟨slots, hf, hs⟩ := free_of_perm
        (w := { w with windows := [], allocatedLen := w.promptLen }) h.nodup h.perm (by simp)
      have hd := h.perm.nodup_iff.1 h.nodup
      refine ⟨slots, w.freed ++ w.windows.flatten.dedup, ?_, hs.nodup_iff.2 hd.of_append_right, ?_,
        fun s hsp => ?_, rfl, nodup_nil⟩
      · rw [hm] at hf
        simp only [hl, if_true, hf, bind, Except.bind]
        rw [freeRows_all _ h.rowsNodup] <;> rfl
      · simpa [torn, named] using hs
      · have := h.prompt s hsp
        have hns := this.1
        rw [h.perm.mem_iff, named, mem_append, not_or] at hns
        exact ⟨fun hm => hns.2 (hs.mem_iff.1 hm), fun hm => (mem_append.1 hm).elim this.2 hns.1⟩
    · have he : w.allocatedLen = w.promptLen := Nat.le_antisymm (Nat.not_lt.1 hl) h.le
      have hs : w.slots = [] := by
        have := h.count (by simp [hm])
        rw [he, Nat.sub_self, Nat.mul_zero] at this
        exact length_eq_zero_iff.1 (by omega)
      have hp := h.perm
      refine ⟨w.slots, w.freed, ?_, h.nodup, ?_, h.prompt, rfl, nodup_nil⟩
      · simp only [hl, if_false, bind, Except.bind]
        rw [freeRows_all _ h.rowsNodup]
        · simp [torn, he]
        · rfl
      · rw [hs, nil_perm, named, append_eq_nil_iff] at hp
        simp [torn, named, hs, hp.2]

lemma retire_torn (h : w.Books) (hr : w.retired = false) (hf : w.finished)
    (hm : w.memberRows = none) (hw : w.windows = []) (hl : w.allocatedLen = w.promptLen) :
    ∃ w', w.retireGroup = .ok w' ∧ w'.Sound := by
  obtain ⟨slots, freed, n, hrec, hb, -⟩ := h.reclaim none
  refine ⟨{ w.reclaimed none slots freed n with retired := true, pendingSteps := [] }, ?_,
    ⟨hb.nodup, hb.perm, hb.prompt, hb.rows, hb.rowsNodup⟩, ?_, ?_, ?_, ?_, ?_, ?_, ?_⟩
  · simp [retireGroup, hr, hrec, bind, Except.bind]
  all_goals simp_all [reclaimed, later]

/-- A group that is finished can be torn down and retired. -/
lemma Sound.finishGroup (h : w.Sound) (hr : w.retired = false) (hf : w.finished) :
    ∃ w', w.finishGroup = .ok w' ∧ w'.Sound := by
  obtain ⟨slots, freed, n, hrec, h⟩ := h.reclaim none
  obtain ⟨slots', freed', hfree, hb⟩ := h.freeMemberRows
  obtain ⟨w', hw, hs⟩ := retire_torn hb hr hf rfl rfl rfl
  exact ⟨w', by simp [World.finishGroup, hrec, hfree, hw, bind, Except.bind], hs⟩

lemma Sound.retract (h : w.Sound) : ∃ w', w.retract = .ok w' ∧ w'.Sound := by
  obtain ⟨slots, freed, hfree, hb⟩ := h.freeMemberRows
  cases hr : w.retired with
  | false =>
    obtain ⟨w', hw, hs⟩ := retire_torn (w := { w.torn slots freed with finished := true })
      ⟨hb.nodup, hb.perm, hb.prompt, hb.rows, hb.rowsNodup⟩ hr rfl rfl rfl rfl
    exact ⟨w', by simp [World.retract, hfree, hw, bind, Except.bind], hs⟩
  | true =>
    obtain ⟨hf, hm⟩ := h.retired hr
    refine ⟨w, ?_, h⟩
    rcases w with ⟨⟨⟩⟩
    simp_all [retract, World.freeMemberRows, retireGroup, bind, Except.bind]

/-! ## Launching -/

/-- After a decode step the rows name what they named and the fresh slots. -/
lemma mem_flatten_zipWith : ∀ {windows} {fresh : List ℕ},
    fresh.length = windows.length → ∀ s,
      s ∈ (zipWith (fun window s => window ++ [s]) windows fresh).flatten ↔
        s ∈ windows.flatten ∨ s ∈ fresh
  | [], [], _, _ => by simp
  | window :: windows, s0 :: fresh, h, s => by
    have ih := mem_flatten_zipWith (succ.inj h) s
    simp only [zipWith_cons_cons, flatten_cons, mem_append, mem_cons, ih]
    grind

lemma perm_append_of_mem {l a b : List ℕ} (hl : l.Nodup) (ha : a.Nodup) (hb : b.Nodup)
    (hd : ∀ s ∈ a, s ∉ b) (hm : ∀ s, s ∈ l ↔ s ∈ a ∨ s ∈ b) : l.Perm (a ++ b) :=
  (perm_ext_iff_of_nodup hl (nodup_append'.2 ⟨ha, hb, hd⟩)).2 fun s => by
    rw [hm, mem_append]

/-- Fresh slots are named by one row each. -/
lemma Sound.allocForDecode (h : w.Sound) {fresh : List ℕ} (hm : w.memberRows.isSome)
    (hlen : fresh.length = w.beamWidth) (hn : fresh.Nodup)
    (hnew : ∀ s ∈ fresh, s ∉ w.prompt ∧ s ∉ w.slots) : (w.allocForDecode fresh).Sound := by
  have hmem := mem_flatten_zipWith (hlen.trans (h.width hm).symm)
  have hd := h.perm.nodup_iff.1 h.nodup
  have hslots : (w.slots ++ fresh).Nodup :=
    nodup_append'.2 ⟨h.nodup, hn, fun s hs hf => (hnew s hf).2 hs⟩
  refine ⟨⟨hslots, ?_, ?_, h.rows, h.rowsNodup⟩, le_succ_of_le h.le, fun _ => ?_, fun _ => ?_,
    fun hm' => absurd hm' (isSome_iff_ne_none.1 hm), h.unspawned, h.retired,
    fun _ hm' => absurd hm' (isSome_iff_ne_none.1 hm)⟩
  · refine perm_append_of_mem hslots (nodup_dedup _) hd.of_append_right ?_ ?_
    all_goals
      intro s
      have := h.perm.mem_iff (a := s)
      have := disjoint_of_nodup_append hd (a := s)
      simp only [World.allocForDecode, named, mem_append, mem_dedup, hmem] at *
      grind
  · intro s hs
    have := h.prompt s hs
    simp only [World.allocForDecode, mem_append, not_or]
    exact ⟨⟨this.1, fun hf => (hnew s hf).1 hs⟩, this.2⟩
  · simp [World.allocForDecode, h.width hm, hlen]
  · have hc := h.count hm
    have : w.allocatedLen + 1 - w.promptLen = w.allocatedLen - w.promptLen + 1 := succ_sub h.le
    simp only [World.allocForDecode, length_append, this, mul_succ]
    omega

/-- A slot that the new windows leave out is an orphan. -/
lemma perm_remap {slots pending : List ℕ} {old new : List (List ℕ)} (hn : slots.Nodup)
    (hp : slots.Perm (old.flatten.dedup ++ pending)) (hsub : ∀ s ∈ new.flatten, s ∈ old.flatten) :
    slots.Perm (new.flatten.dedup ++ (pending ++ collectOrphanSlots old new)) := by
  have hd := hp.nodup_iff.1 hn
  have hdis := disjoint_of_nodup_append hd
  have hmem : ∀ s, s ∈ collectOrphanSlots old new ↔ s ∈ old.flatten ∧ s ∉ new.flatten := fun s => by
    simp [collectOrphanSlots]
  refine perm_append_of_mem hn (nodup_dedup _) (nodup_append'.2
    ⟨hd.of_append_right, (nodup_dedup _).filter _, fun s hs ho => ?_⟩) ?_ ?_
  · exact hdis (mem_dedup.2 ((hmem s).1 ho).1) hs
  all_goals
    intro s
    have := hp.mem_iff (a := s)
    have := hdis (a := s)
    simp only [mem_append, mem_dedup, hmem] at *
    grind

/-- Rows that take over the windows of their parents name nothing new. -/
lemma mem_flatten_map_getD {windows : List (List ℕ)} (parents : List ℕ) {s : ℕ}
    (h : s ∈ (parents.map fun p => windows.getD p []).flatten) : s ∈ windows.flatten := by
  simp only [mem_flatten, List.mem_map] at h ⊢
  obtain ⟨_, ⟨p, -, rfl⟩, hs⟩ := h
  refine ⟨windows.getD p [], ?_, hs⟩
  grind

/-- What no row names after a selection is staged, so nothing is lost. -/
lemma Sound.stage (h : w.Sound) (tick : ℕ) (sel : Selection) : (w.stage tick sel).Sound :=
  ⟨⟨h.nodup, h.perm, h.prompt, h.rows, h.rowsNodup⟩, h.le, h.width, h.count, h.idle,
    fun hz => absurd hz (succ_ne_zero _), h.retired, h.tail⟩

lemma Sound.select (h : w.Sound) (tick : ℕ) {sel : Selection} (ht : w.inTail)
    (hl : sel.parentIdx.length = w.beamWidth) : (w.selectAndRelayDecode tick sel).Sound := by
  have h' : Sound { w with inTail := false } :=
    ⟨⟨h.nodup, h.perm, h.prompt, h.rows, h.rowsNodup⟩, h.le, h.width, h.count, h.idle, h.unspawned,
      h.retired, nofun⟩
  unfold selectAndRelayDecode
  dsimp only
  split
  · exact h'
  rename_i hr
  split
  · exact h'.stage tick sel
  have hm : w.memberRows ≠ none := fun hm => hr (Or.inl (h.tail ht hm))
  refine ⟨⟨h.nodup, ?_, h.prompt, h.rows, h.rowsNodup⟩, h.le, fun _ => ?_, h.count,
    fun hm' => absurd hm' hm, fun hz => absurd hz (succ_ne_zero _), h.retired, nofun⟩
  · have := perm_remap h.nodup h.perm fun s =>
      mem_flatten_map_getD sel.parentIdx
    simpa [named, World.stage, Staged.orphans] using this
  · exact (length_map _).trans hl

/-! ## Runs -/

lemma sound_start (k m : ℕ) (prompt : List ℕ) : (start k m prompt).Sound := by
  refine ⟨⟨?_, ?_, ?_, ?_, ?_⟩, ?_, ?_, ?_, ?_, ?_, ?_, ?_⟩ <;> simp [start, named]

section
variable (h : w.Sound)

include h

lemma Sound.prefill (tick : ℕ) (sel : Selection) {rows : List ℕ}
    (hz : w.numGenerated = 0) (hf : w.finished = false) (hn : rows.Nodup) :
    (w.selectLeaderPrefill tick sel rows).Sound := by
  unfold selectLeaderPrefill
  split
  · exact h.stage tick sel
  obtain ⟨hm, hfr⟩ := h.unspawned hz
  have hs := h.slots_eq_nil hm
  have hi := h.idle hm
  have hr : w.retired = false := Bool.eq_false_iff.2 fun hr => by simp [(h.retired hr).1] at hf
  refine ⟨⟨h.nodup, ?_, h.prompt, rfl, hn⟩, h.le, ?_, ?_, nofun, nofun, ?_, nofun⟩
  all_goals simp_all [World.stage, named]

lemma Sound.withState (steps : List (ℕ × Bool)) {finished : Bool}
    (hf : w.finished → finished) :
    Sound { w with pendingSteps := steps, finished := finished } :=
  ⟨⟨h.nodup, h.perm, h.prompt, h.rows, h.rowsNodup⟩, h.le, h.width, h.count, h.idle,
    fun hz => (h.unspawned hz).imp_right (·.imp_left hf),
    fun hr => (h.retired hr).imp_left hf, h.tail⟩

lemma Sound.abort (hr : w.retired = false) :
    ∃ w', { w with finished := true }.finishGroup = .ok w' ∧ w'.Sound :=
  (h.withState w.pendingSteps fun _ => rfl).finishGroup hr rfl

/-- A commit frees, finishes or goes on; none of the three fails. -/
lemma Sound.commitTail (hr : w.retired = false) (t : ℕ) :
    ∃ w', w.commitTail t = .ok w' ∧ w'.Sound := by
  unfold World.commitTail commitPending
  cases hf : w.finished with
  | true => exact ⟨_, rfl, h.withState [] fun _ => rfl⟩
  | false =>
    have hw : ∀ steps ends, Sound { w with pendingSteps := steps, finished := ends } :=
      fun steps ends => h.withState steps (by simp [hf])
    rcases commitSteps t w.pendingSteps with ⟨steps, _ | _⟩
    · exact ⟨_, rfl, hw steps false⟩
    · exact (hw steps true).finishGroup hr rfl

lemma Sound.commitPrefill (t : ℕ) (toFinish : Bool) :
    ∃ w', w.commitPrefill t toFinish = .ok w' ∧ w'.Sound := by
  unfold World.commitPrefill
  by_cases hr : w.retired
  · exact ⟨w, if_pos hr, h⟩
  rw [if_neg hr]
  cases toFinish with
  | true => exact h.abort (Bool.eq_false_iff.2 hr)
  | false =>
    obtain ⟨slots, freed, n, hrec, h'⟩ := h.reclaim (some t)
    obtain ⟨w', hw, hs⟩ := h'.commitTail (Bool.eq_false_iff.2 hr) t
    exact ⟨w', by simp [hrec, hw, bind, Except.bind], hs⟩

lemma Sound.commitDecode (t : ℕ) (toFinish : Bool) :
    ∃ w', w.commitDecode t toFinish = .ok w' ∧ w'.Sound := by
  unfold World.commitDecode
  by_cases hr : w.retired
  · exact ⟨w, if_pos hr, h⟩
  rw [if_neg hr]
  obtain ⟨slots, freed, n, hrec, h'⟩ := h.reclaim (some t)
  cases toFinish with
  | true =>
    obtain ⟨w', hw, hs⟩ := h'.abort (Bool.eq_false_iff.2 hr)
    exact ⟨w', by simp [hrec, hw, bind, Except.bind], hs⟩
  | false =>
    obtain ⟨w', hw, hs⟩ := h'.commitTail (Bool.eq_false_iff.2 hr) t
    exact ⟨w', by simp [hrec, hw, bind, Except.bind], hs⟩

/-- The step of the invariant: no step faults. -/
lemma Sound.step {op : Op} {r : Except Fault World} (hs : w.step op = some r) :
    ∃ w', r = .ok w' ∧ w'.Sound := by
  cases op with
  | prefill tick sel rows =>
    obtain ⟨hg, hs⟩ := ite_none_left_eq_some.1 hs
    simp only [not_or, not_not, Bool.not_eq_true] at hg
    exact ⟨_, (Option.some.inj hs).symm, h.prefill tick sel hg.2.1 hg.1 hg.2.2.1⟩
  | alloc fresh =>
    obtain ⟨hg, hs⟩ := ite_none_left_eq_some.1 hs
    simp only [not_or, not_not, not_exists, not_and] at hg
    obtain ⟨-, hm, -, hlen, hn, hnew⟩ := hg
    exact ⟨_, (Option.some.inj hs).symm, h.allocForDecode (isSome_iff_ne_none.2
      (mt isNone_iff_eq_none.2 hm)) hlen hn hnew⟩
  | select tick sel =>
    obtain ⟨hg, hs⟩ := ite_none_left_eq_some.1 hs
    simp only [not_or, not_not] at hg
    exact ⟨_, (Option.some.inj hs).symm, h.select tick hg.1 hg.2.1⟩
  | commitPrefill tick toFinish =>
    obtain rfl := Option.some.inj hs
    exact h.commitPrefill tick toFinish
  | commitDecode tick toFinish =>
    obtain rfl := Option.some.inj hs
    exact h.commitDecode tick toFinish
  | retract =>
    obtain rfl := Option.some.inj hs
    exact h.retract

/-- Every operation keeps the slots and rows accounted for, and none of its frees is a fault. -/
lemma Sound.next {op : Op} {w' : World} (hs : w.next op = some w') : w'.Sound := by
  obtain ⟨r, hr, hok⟩ := bind_eq_some_iff.1 hs
  obtain ⟨w1, rfl, h1⟩ := h.step hr
  exact Option.some.inj hok ▸ h1

/-- The count that the scheduler is told is that of the slots held beyond those of the request
itself. -/
lemma Sound.extraUncachedTokens :
    w.extraUncachedTokens + (w.allocatedLen - w.promptLen : ℤ) = w.slots.length := by
  unfold World.extraUncachedTokens
  cases hm : w.memberRows with
  | none => simp [h.slots_eq_nil hm, (h.idle hm).2.2]
  | some rows =>
    have hc := h.count (by simp [hm])
    have hsub : ((w.allocatedLen - w.promptLen : ℕ) : ℤ) = w.allocatedLen - w.promptLen :=
      Int.natCast_sub h.le
    have : (w.slots.length : ℤ) + w.slotsFreed = w.beamWidth * (w.allocatedLen - w.promptLen) := by
      rw [← hsub]
      exact_mod_cast hc
    simp only [isNone_some, Bool.false_eq_true, if_false]
    omega

end
end World

/-- Two rows; the second selection leaves one survivor, and a third forward is launched before it is
committed. -/
def overshootRun : List Op :=
  [.prefill 1 ⟨2, [0, 0]⟩ [7], .alloc [10, 11], .select 2 ⟨2, [0, 0]⟩, .commitPrefill 1 false,
    .alloc [12, 13], .select 3 ⟨1, [1, 0]⟩, .commitDecode 2 false, .alloc [11, 14],
    .select 4 ⟨2, [0, 0]⟩, .commitDecode 3 false]

end Sglang.Beam
