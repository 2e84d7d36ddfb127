import Sglang.Sticky.Saved
import Sglang.Sticky.Joint
import Sglang.Sticky.Pin

/-!
# Resuming at a recorded stop

What the worker owes the scheduler: if the scheduler lists a stop, the worker can go back to it.

A stop stands for the token ids before it.  Two kinds of evidence make it resumable.  `Filed`: the
history holds, under its length, the rings that were live when it was taken.  `TipStands`: the rings
are still the on-device tip, which is named by the same length, or by a longer one when verify ran
past the ids the scheduler pinned.  `PinOk` is what a pin needs: its whole length is resumable in
one of the two ways, and every shorter cut is filed.

`resumeAt_spec` is the worker's half of the agreement: from a pin that is ok, resuming at a listed
cut does not raise and leaves the rings of that cut, provided the freeze on the way forgets none of
the cuts.
-/

namespace Sglang.Sticky
open List Store

variable {Rows Ring : Type}

/-- The stops taken in a run, newest first: token ids, and the rings that were live there. -/
abbrev Stops (Ring : Type) := List (List Token × Paired Ring)

/-- What holds of the store between two forwards, when `rings` are live. -/
structure WorkerOk (s : Store Ring) (rings : Paired Ring) : Prop where
  wf : s.WF
  /-- No filed stop lies past the tip. -/
  keys_le : ∀ k ∈ s.keys, 0 < k ∧ k ≤ s.tipLen
  resident : s.residentEnd = s.tipLen
  /-- The tip is what is live, once a forward has run. -/
  tip : s.tip = some rings ∨ (s.tip = none ∧ s.tipLen = 0)
  filed_tip : ∀ snap, s.history.lookup s.tipLen = some snap → snap = rings

/-- The stop at the end of `pre` is in the history. -/
def Filed (s : Store Ring) (stops : Stops Ring) (pre : List Token) : Prop :=
  ∃ snap, s.history.lookup pre.length = some snap ∧ stops.lookup pre = some snap

/-- The stop at the end of `pre` is the tip, or verify slack of it. -/
structure TipStands (s : Store Ring) (stops : Stops Ring) (pre : List Token) : Prop where
  tip : ∃ snap, s.tip = some snap ∧ stops.lookup pre = some snap
  le : pre.length ≤ s.tipLen
  slack : pre.length < s.tipLen → s.tipFromExtend = false
  keys_lt : ∀ k ∈ s.keys, k < pre.length

/-- The pinned ids and their cuts can be resumed. -/
structure PinOk (s : Store Ring) (stops : Stops Ring) (ids : List Token) (cuts : List Nat) :
    Prop where
  ne_nil : ids ≠ []
  top : Filed s stops ids ∨ TipStands s stops ids
  cut : ∀ c ∈ cuts, 0 < c ∧ c ≤ ids.length ∧ (c < ids.length → Filed s stops (ids.take c))

lemma workerOk_empty (rings : Paired Ring) : WorkerOk (Store.empty : Store Ring) rings :=
  ⟨Store.wf_empty, by simp [Store.keys, Store.empty], rfl, .inr ⟨rfl, rfl⟩,
    by simp [Store.empty]⟩

variable {s : Store Ring} {rings : Paired Ring} {n : Nat}

/-- After a forward the tip is live.  One that ends where the last one did changed nothing. -/
lemma WorkerOk.backupTip {rings' : Paired Ring} (h : WorkerOk s rings) (hn : s.tipLen ≤ n)
    (hsame : n = s.tipLen → rings' = rings) (fromExtend : Bool) :
    WorkerOk (s.backupTip rings' n fromExtend) rings' := by
  refine ⟨⟨h.wf.keys_eq, h.wf.cap, h.wf.nodup⟩, fun k hk => ?_, rfl, .inl rfl, fun snap hs => ?_⟩
  · have hk := h.keys_le k hk
    exact ⟨hk.1, le_trans hk.2 hn⟩
  · have hle := (h.keys_le n (mem_keys_of_lookup hs)).2
    have heq : n = s.tipLen := le_antisymm hle hn
    rw [hsame heq]
    subst heq
    exact h.filed_tip snap hs

lemma workerOk_backupTip (hwf : s.WF) (hkeys : ∀ k ∈ s.keys, 0 < k ∧ k < n)
    (rings : Paired Ring) (fromExtend : Bool) :
    WorkerOk (s.backupTip rings n fromExtend) rings := by
  refine ⟨⟨hwf.keys_eq, hwf.cap, hwf.nodup⟩, fun k hk => ?_, rfl, .inl rfl, fun snap hs => ?_⟩
  · exact ⟨(hkeys k hk).1, le_of_lt (hkeys k hk).2⟩
  · exact absurd (hkeys n (mem_keys_of_lookup hs)).2 (lt_irrefl n)

variable {stops : Stops Ring} {pre ids : List Token}

lemma lookup_cons_of_length_ne (h : pre.length ≠ ids.length) :
    lookup pre ((ids, rings) :: stops) = stops.lookup pre := by
  grind

lemma Filed.cons (h : Filed s stops pre) (hne : pre.length ≠ ids.length) :
    Filed s ((ids, rings) :: stops) pre := by
  obtain ⟨snap, hs, hl⟩ := h
  exact ⟨snap, hs, by rw [lookup_cons_of_length_ne hne, hl]⟩

variable {cuts cuts' : List Nat}

lemma PinOk.mono (h : PinOk s stops ids cuts) (hsub : ∀ c ∈ cuts', c ∈ cuts ∨ c = ids.length) :
    PinOk s stops ids cuts' := by
  refine ⟨h.ne_nil, h.top, fun c hc => ?_⟩
  rcases hsub c hc with hc | rfl
  · exact h.cut c hc
  · grind [h.ne_nil]

lemma PinOk.take (h : PinOk s stops ids cuts) (hn : n ∈ cuts)
    (hsub : ∀ c ∈ cuts', c = n ∨ (c ∈ cuts ∧ c ≤ n)) : PinOk s stops (ids.take n) cuts' := by
  obtain ⟨hpos, hle, hcut⟩ := h.cut n hn
  have hlen : (ids.take n).length = n := by rw [length_take, min_eq_left hle]
  refine ⟨fun hnil => ?_, ?_, fun c hc => ?_⟩
  · grind
  · grind [h.top]
  · rw [hlen]
    rcases hsub c hc with rfl | ⟨hc, hcn⟩
    · exact ⟨hpos, le_refl _, fun hlt => absurd hlt (lt_irrefl _)⟩
    obtain ⟨hc0, -, hcf⟩ := h.cut c hc
    refine ⟨hc0, hcn, fun hlt => ?_⟩
    rw [take_take, min_eq_left hcn]
    exact hcf (lt_of_lt_of_le hlt hle)

lemma Filed.mem_keys (h : Filed s stops pre) : pre.length ∈ s.keys := by
  obtain ⟨snap, hs, -⟩ := h
  exact mem_keys_of_lookup hs

/-! ## Filing the tip -/

lemma Filed.freezeTip (h : Filed s stops pre) (hwf : s.WF) (hroom : s.RoomOrForgotten cuts)
    (hc : pre.length ∈ cuts) : Filed s.freezeTip stops pre := by
  have hk := h.mem_keys
  obtain ⟨snap, hs, hl⟩ := h
  exact ⟨snap, by rw [lookup_freezeTip_of_room hwf hroom hc hk, hs], hl⟩

lemma TipStands.freezeTip (h : TipStands s stops pre) (hwf : s.WF) (hpos : pre ≠ [])
    (hlen : pre.length = s.tipLen) : Filed s.freezeTip stops pre := by
  obtain ⟨snap, hs, hl⟩ := h.tip
  have hne : s.tipLen ≠ 0 := by
    grind
  have hp : s.TipPending snap := by
    refine ⟨hs, hne, fun hk => ?_⟩
    have := h.keys_lt _ hk
    omega
  exact ⟨snap, by rw [hlen, lookup_freezeTip_tipLen hwf hp], hl⟩

lemma WorkerOk.freezeTip (h : WorkerOk s rings) : WorkerOk s.freezeTip rings := by
  refine ⟨h.wf.freezeTip, fun k hk => ?_, ?_, ?_, fun snap hs => ?_⟩
  · rw [freezeTip_tipLen]
    rcases mem_keys_freezeTip hk with hk | ⟨rfl, snap, hp⟩
    · exact h.keys_le k hk
    · exact ⟨Nat.pos_of_ne_zero hp.2.1, le_refl _⟩
  · rw [freezeTip_residentEnd, freezeTip_tipLen, h.resident]
  · simpa using h.tip
  · rw [freezeTip_tipLen] at hs
    by_cases hp : ∃ snap, s.TipPending snap
    · obtain ⟨snap', hp⟩ := hp
      rw [lookup_freezeTip_tipLen h.wf hp, Option.some_inj] at hs
      rcases h.tip with ht | ⟨ht, -⟩
      · simp_all [hp.1]
      · simp_all [hp.1]
    · grind [freezeTip_of_not_pending, h.filed_tip]

/-! ## Renaming verify slack -/

lemma slack_of_tipStands (h : TipStands s stops pre) (hlt : pre.length < s.tipLen) :
    s.verifyTipIsPinSlack pre.length = true := by
  obtain ⟨snap, hs, -⟩ := h.tip
  rw [verifyTipIsPinSlack, if_neg]
  · simp only [Bool.not_eq_true', any_eq_false, decide_eq_true_eq]
    intro k hk hc
    have := h.keys_lt k hk
    omega
  · simp only [not_or]
    refine ⟨by simp [hs], by simp [h.slack hlt], by omega, fun hk => ?_, fun hk => ?_⟩
    · exact absurd (h.keys_lt _ hk) (lt_irrefl _)
    · have := h.keys_lt _ hk
      omega

variable {start : Nat}

/-- Renaming the tip to the pinned length keeps the store in order. -/
lemma WorkerOk.relabelTip (h : WorkerOk s rings) (hs : s.verifyTipIsPinSlack start = true) :
    WorkerOk (s.relabelTip start) rings := by
  obtain ⟨htip, hlt, hstart, htl, hk⟩ := slack_spec hs
  refine ⟨⟨h.wf.keys_eq, h.wf.cap, h.wf.nodup⟩, fun k hkk => ?_, rfl, ?_, fun snap hl => ?_⟩
  · have hle := h.keys_le k hkk
    have hne : k ≠ s.tipLen := by
      rintro rfl
      exact htl hkk
    have := hk k hkk
    exact ⟨hle.1, by show k ≤ start; omega⟩
  · rcases h.tip with ht | ⟨ht, -⟩
    · exact .inl ht
    · grind
  · exact absurd (mem_keys_of_lookup hl) hstart

lemma room_relabelTip (h : s.RoomOrForgotten cuts) (hs : s.verifyTipIsPinSlack start = true) :
    (s.relabelTip start).RoomOrForgotten cuts := by
  obtain ⟨htip, -, -, htl, -⟩ := slack_spec hs
  rcases h with h | h | h | h
  · exact .inl h
  · grind [Option.isNone_iff_eq_none]
  · exact absurd h htl
  · exact .inr (.inr (.inr h))

/-! ## Resuming -/

/-- The store as `resumeAt` files it: the tip under the pin if it is verify slack, then frozen. -/
def Store.filedFor (s : Store Ring) (start : Nat) : Store Ring :=
  let s := if s.verifyTipIsPinSlack start then s.relabelTip start else s
  if 0 < s.tipLen then s.freezeTip else s

variable {live : Live Rows Ring}

/-- **Resuming at a filed stop**: it does not raise, and leaves the rings of the stop. -/
theorem resumeAt_of_filed (Key : Type) (pre : List Token)
    (hok : WorkerOk (s.filedFor pre.length) live.rings)
    (hf : Filed (s.filedFor pre.length) stops pre) :
    ∃ s' live' snap,
      (resumeAt s live pre.length : Except (BoundaryFault Key) _) = .ok (s', live') ∧
      stops.lookup pre = some snap ∧ live'.rings = snap.copyInto live.rings ∧ s'.WF ∧
      (∀ k ∈ s'.keys, 0 < k ∧ k ≤ pre.length) ∧
      ∀ c ≤ pre.length, s'.history.lookup c = (s.filedFor pre.length).history.lookup c := by
  have hle := (hok.keys_le _ hf.mem_keys).2
  obtain ⟨snap, hs, hl⟩ := hf
  have hunfold : (resumeAt s live pre.length : Except (BoundaryFault Key) _) =
      if pre.length = (s.filedFor pre.length).residentEnd then .ok (s.filedFor pre.length, live)
      else if (s.filedFor pre.length).residentEnd < pre.length then
        .error (.startsPastResident pre.length (s.filedFor pre.length).residentEnd)
      else ((s.filedFor pre.length).restore live.rings pre.length).bind fun r =>
        .ok (r.1, live.withRings r.2) := rfl
  rw [hunfold]
  generalize s.filedFor pre.length = t at hok hle hs
  rw [hok.resident]
  by_cases heq : pre.length = t.tipLen
  · refine ⟨t, live, snap, if_pos heq, hl, ?_, hok.wf, fun k hk => ?_, fun c _ => rfl⟩
    · rw [hok.filed_tip snap (heq ▸ hs), Paired.copyInto_self]
    · exact heq ▸ hok.keys_le k hk
  · have hsnaps : t.snapsAt pre.length = some snap := by
      rw [snapsAt, if_neg (fun h => heq h.1), hs]
    refine ⟨t.restored pre.length, live.withRings (snap.copyInto live.rings), snap, ?_, hl,
      Paired.rings_withRings_copyInto _ _, hok.wf.restored _, fun k hk => ?_,
      fun c hc => lookup_restored hc⟩
    · rw [if_neg heq, if_neg (by omega), restore_eq, hsnaps]
      rfl
    · have hk := mem_keys_restored hok.wf hk
      exact ⟨(hok.keys_le k hk.1).1, hk.2⟩

/-- The filing `resumeAt` does keeps the store in order and the listed stops filed. -/
lemma PinOk.filedFor (hpin : PinOk s stops ids cuts) (hok : WorkerOk s rings)
    (hroom : s.RoomOrForgotten cuts) (hstart : start ∈ cuts) :
    WorkerOk (s.filedFor start) rings ∧
      ∀ c ∈ cuts, c ≤ start → Filed (s.filedFor start) stops (ids.take c) := by
  have hlen : ∀ c ≤ ids.length, (ids.take c).length = c := fun c hc => by
    rw [length_take, min_eq_left hc]
  obtain ⟨hpos, hle, hcut⟩ := hpin.cut start hstart
  have hidspos : 0 < ids.length := by omega
  by_cases hs : s.verifyTipIsPinSlack start = true
  · -- Verify slack: the pin ends at `start`, which is not filed yet, so it stands at the tip.
    obtain ⟨htip, hlt, hnk, -, -⟩ := Store.slack_spec hs
    have hnf : ¬ Filed s stops (ids.take start) := by
      intro hf
      have hk := hf.mem_keys
      rw [hlen start hle] at hk
      exact hnk hk
    have heq : start = ids.length := by
      grind
    have hstand : TipStands s stops ids := by
      grind [hpin.top.resolve_left]
    have hok1 := hok.relabelTip hs
    have hfile : s.filedFor start = (s.relabelTip start).freezeTip := by
      simp only [Store.filedFor, hs, if_true]
      rw [if_pos (show 0 < (s.relabelTip start).tipLen from hpos)]
    rw [hfile]
    refine ⟨hok1.freezeTip, fun c hc hcs => ?_⟩
    by_cases hcl : c < ids.length
    · have hf : Filed (s.relabelTip start) stops (ids.take c) := (hpin.cut c hc).2.2 hcl
      exact hf.freezeTip hok1.wf (room_relabelTip hroom hs) (by rwa [hlen c (le_of_lt hcl)])
    · have hc' : c = ids.length := by omega
      subst hc'
      rw [take_length]
      have hst : TipStands (s.relabelTip start) stops ids :=
        ⟨hstand.tip, le_of_eq heq.symm,
          fun h => absurd h (by show ¬ ids.length < start; omega), hstand.keys_lt⟩
      exact hst.freezeTip hok1.wf hpin.ne_nil heq.symm
  · have htl : 0 < s.tipLen := by
      rcases hpin.top with hf | ht
      · grind [hok.keys_le, hf.mem_keys]
      · have := ht.le
        omega
    have hfile : s.filedFor start = s.freezeTip := by
      simp only [Store.filedFor, if_neg hs, if_pos htl]
    rw [hfile]
    refine ⟨hok.freezeTip, fun c hc hcs => ?_⟩
    by_cases hcl : c < ids.length
    · exact ((hpin.cut c hc).2.2 hcl).freezeTip hok.wf hroom (by rwa [hlen c (le_of_lt hcl)])
    have hc' : c = ids.length := by omega
    subst hc'
    rw [take_length]
    rcases hpin.top with hf | ht
    · exact hf.freezeTip hok.wf hroom hc
    · grind [ht.freezeTip, hok.wf, ht.le, slack_of_tipStands]

lemma resumeAt_spec (Key : Type) (hpin : PinOk s stops ids cuts) (hok : WorkerOk s live.rings)
    (hroom : s.RoomOrForgotten cuts) (hstart : start ∈ cuts) :
    ∃ s' live' snap, (resumeAt s live start : Except (BoundaryFault Key) _) = .ok (s', live') ∧
      stops.lookup (ids.take start) = some snap ∧ live'.rings = snap.copyInto live.rings ∧
      s'.WF ∧ (∀ k ∈ s'.keys, 0 < k ∧ k ≤ start) ∧
      ∀ c ∈ cuts, c ≤ start → Filed s' stops (ids.take c) := by
  obtain ⟨hok', hfiled⟩ := hpin.filedFor hok hroom hstart
  have hlen : ∀ c ≤ ids.length, (ids.take c).length = c := fun c hc => by
    rw [length_take, min_eq_left hc]
  have hle := (hpin.cut start hstart).2.1
  have hpre := hlen start hle
  obtain ⟨s', live', snap, hr, hl, hrings, hwf, hkeys, hlook⟩ :=
    resumeAt_of_filed Key (ids.take start) (by rwa [hpre])
      (by rw [hpre]; exact hfiled start hstart (le_refl _))
  rw [hpre] at hr hkeys hlook
  refine ⟨s', live', snap, hr, hl, hrings, hwf, hkeys, fun c hc hcs => ?_⟩
  obtain ⟨snap', hs, hl'⟩ := hfiled c hc hcs
  refine ⟨snap', ?_, hl'⟩
  rw [hlen c (le_trans hcs hle)] at hs ⊢
  rw [hlook c hcs, hs]

end Sglang.Sticky
