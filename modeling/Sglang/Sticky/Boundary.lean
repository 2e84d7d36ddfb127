import Sglang.Sticky.Recorded

/-!
# The worker's boundary store

`Csa2BoundaryStore` (`sm70_csa2_boundary.py`) holds the checkpoints of the one sequence resident on
the GPU.  What a later token destroys is the sliding-window ring and the ratio-2 pending pair of
each layer; a checkpoint is a copy of them, taken when a forward ends.  The newest copy is the
*tip*, on the device; `freezeTip` files it in the host *history* under its length, and `restore`
copies a filed one back.

The bytes of a ring and its pending pair are an arbitrary type `Ring`: nothing here looks inside.
The target backend always has its state, the draft backend may not have one yet, and `Paired`
carries the two.  Graph capture, during which every entry point returns at once, is left out.
-/

namespace Sglang.Sticky
open List

universe u

/-- One value for the target backend and, once the draft backend has state, one for the draft. -/
structure Paired (α : Type u) where
  target : α
  draft : Option α
  deriving DecidableEq, Repr

/-- `restore_into` for each label: a label the snap lacks keeps what is live, and a label the
backend lacks is skipped. -/
def Paired.copyInto {α : Type u} (snap live : Paired α) : Paired α where
  target := snap.target
  draft := match live.draft, snap.draft with
    | some _, some d => some d
    | l, _ => l

/-- Copying a snap over itself changes nothing. -/
@[simp] lemma Paired.copyInto_self {α : Type u} (p : Paired α) : p.copyInto p = p := by
  cases p with
  | mk t d => cases d <;> rfl

/-- The `RuntimeError`s of the boundary store. -/
inductive BoundaryFault (Key : Type)
  /-- `CSA2 boundary restore missed length ...; tip=... history=...`. -/
  | restoreMissed (length tip : Nat) (history : List Nat)
  /-- `CSA2 boundary extend starts past the resident image (start=... resident=...)`. -/
  | startsPastResident (start resident : Nat)
  /-- `CSA2 session load missed key ... at prefix ...`. -/
  | sessionLoadMissed (key : Key) (start : Nat)
  deriving DecidableEq, Repr

/-- `Csa2BoundaryStore`: one resident sequence. -/
structure Store (Ring : Type) where
  residentEnd : Nat
  tipLen : Nat
  tipFromExtend : Bool
  tip : Option (Paired Ring)
  history : List (Nat × Paired Ring)
  order : List Nat
  deriving DecidableEq, Repr

namespace Store
variable {Ring : Type}

/-- A store that has seen nothing; `clear` leaves the same. -/
def empty : Store Ring where
  residentEnd := 0
  tipLen := 0
  tipFromExtend := false
  tip := none
  history := []
  order := []

variable (s : Store Ring)

/-- The lengths filed in the history. -/
def keys : List Nat := s.history.map Prod.fst

/-- `backup_tip`: the live image becomes the tip, named `seqLen`. -/
def backupTip (live : Paired Ring) (seqLen : Nat) (fromExtend : Bool) : Store Ring :=
  { s with
    tip := some live
    tipLen := seqLen
    residentEnd := seqLen
    tipFromExtend := fromExtend }

variable (length : Nat)

/-- Name the current image with the scheduler token length. -/
def relabelTip : Store Ring :=
  { s with
    tipLen := length
    residentEnd := length }

/-- The tip is a verify image that runs past `start`, with nothing filed from `start` on. -/
def verifyTipIsPinSlack (start : Nat) : Bool :=
  if s.tip.isNone ∨ s.tipFromExtend ∨ s.tipLen ≤ start ∨ start ∈ s.keys ∨ s.tipLen ∈ s.keys then
    false
  else !s.keys.any fun length => decide (start < length ∧ length < s.tipLen)

/-- Copy the on-device tip into the host history once. -/
def freezeTip : Store Ring :=
  match s.tip with
  | none => { s with tipFromExtend := false }
  | some snap =>
    if s.tipLen = 0 ∨ s.tipLen ∈ s.keys then { s with tipFromExtend := false }
    else
      let order := evictRecent (s.order.filter (fun n => n != s.tipLen) ++ [s.tipLen]) boundaryKeep
      { s with
        history := (s.history ++ [(s.tipLen, snap)]).filter fun h => decide (h.1 ∈ order)
        order := order
        tipFromExtend := false }

/-- `restore`: copy the image filed under `length` back and forget the longer ones. -/
def restore {Key : Type} (s : Store Ring) (live : Paired Ring) (length : Nat) :
    Except (BoundaryFault Key) (Store Ring × Paired Ring) :=
  let snaps := if length = s.tipLen ∧ s.tip.isSome ∧ length ∉ s.keys then s.tip
    else s.history.lookup length
  match snaps with
  | none => .error (.restoreMissed length s.tipLen s.order)
  | some snap =>
    let s := { s with
      residentEnd := length
      history := s.history.filter fun h => !decide (h.1 ∈ s.order ∧ length < h.1)
      order := s.order.filter fun n => decide (n ≤ length) }
    .ok (if length < s.tipLen then { s with tip := none, tipLen := length } else s,
      snap.copyInto live)

/-! ## Lookups in the history -/

variable {l : List (Nat × Paired Ring)} {n : Nat}

lemma lookup_isSome_iff : (l.lookup n).isSome ↔ n ∈ l.map Prod.fst := by
  simp

variable {s : Store Ring} {snap : Paired Ring}

lemma mem_keys_of_lookup (h : s.history.lookup n = some snap) : n ∈ s.keys :=
  lookup_isSome_iff.1 (by rw [h]; rfl)

variable {p : Nat → Bool}

lemma lookup_filter_of_keep (hp : p n = true) :
    (l.filter fun h => p h.1).lookup n = l.lookup n := by
  induction l with
  | nil => rfl
  | cons h t ih =>
    grind

lemma lookup_concat {m : Nat} {v : Paired Ring} :
    (l ++ [(m, v)]).lookup n =
      if n ∈ l.map Prod.fst then l.lookup n else if n = m then some v else none := by
  induction l with
  | nil =>
    grind
  | cons h t ih =>
    obtain ⟨k, w⟩ := h
    by_cases hk : n = k
    · simp [hk]
    · grind

/-! ## Freezing the tip -/

/-- The worker has room for one more stop, or files nothing, or the oldest stop it would forget
is one that `cuts` no longer lists. -/
def RoomOrForgotten (s : Store Ring) (cuts : List Nat) : Prop :=
  s.order.length < boundaryKeep ∨ s.tip.isNone ∨ s.tipLen ∈ s.keys ∨
    ∀ oldest ∈ s.order.head?, oldest ∉ cuts

instance (s : Store Ring) (cuts : List Nat) : Decidable (s.RoomOrForgotten cuts) :=
  inferInstanceAs (Decidable (_ ∨ _))

/-- The history and its order list the same lengths, at most `boundaryKeep` of them. -/
structure WF (s : Store Ring) : Prop where
  /-- Each filed length is listed, in filing order. -/
  keys_eq : s.keys = s.order
  /-- The list is capped. -/
  cap : s.order.length ≤ boundaryKeep
  /-- No length is listed twice. -/
  nodup : s.order.Nodup

lemma wf_empty : (empty : Store Ring).WF := ⟨rfl, by simp [empty], by simp [empty]⟩

/-- A tip that is not filed yet and has a positive length. -/
def TipPending (s : Store Ring) (snap : Paired Ring) : Prop :=
  s.tip = some snap ∧ s.tipLen ≠ 0 ∧ s.tipLen ∉ s.keys

lemma freezeTip_of_pending (h : s.TipPending snap) :
    s.freezeTip = { s with
      history := (s.history ++ [(s.tipLen, snap)]).filter fun h =>
        decide (h.1 ∈ evictRecent (s.order.filter (fun n => n != s.tipLen) ++ [s.tipLen])
          boundaryKeep)
      order := evictRecent (s.order.filter (fun n => n != s.tipLen) ++ [s.tipLen]) boundaryKeep
      tipFromExtend := false } := by
  obtain ⟨htip, h0, hk⟩ := h
  rw [freezeTip, htip]
  dsimp only
  rw [if_neg (by rintro (h | h); exacts [h0 h, hk h])]

lemma freezeTip_of_not_pending (h : ∀ snap, ¬ s.TipPending snap) :
    s.freezeTip = { s with tipFromExtend := false } := by
  rw [freezeTip]
  split
  · rfl
  rename_i snap htip
  rw [if_pos]
  by_contra hc
  rw [not_or] at hc
  exact h snap ⟨htip, hc.1, hc.2⟩

/-- The stops listed after the tip of `s` is filed. -/
lemma order_freeze_eq (hwf : s.WF) (h : s.TipPending snap) :
    s.freezeTip.order = evictRecent (s.order ++ [s.tipLen]) boundaryKeep := by
  rw [freezeTip_of_pending h]
  have hne : s.order.filter (fun n => n != s.tipLen) = s.order := by
    rw [filter_eq_self]
    intro n hn
    rw [bne_iff_ne]
    rintro rfl
    exact h.2.2 (hwf.keys_eq ▸ hn)
  rw [hne]

lemma keys_filter : (l.filter fun h => p h.1).map Prod.fst = (l.map Prod.fst).filter p := by
  rw [filter_map]; rfl

lemma filter_mem_suffix {l suf : List Nat} (hl : l.Nodup) (h : suf <:+ l) :
    l.filter (fun n => decide (n ∈ suf)) = suf := by
  obtain ⟨pre, rfl⟩ := h
  rw [filter_append, filter_eq_nil_iff.2, filter_eq_self.2, nil_append]
  · intro a ha; simpa using ha
  · grind

/-- Freezing keeps the books in step. -/
lemma WF.freezeTip (hwf : s.WF) : s.freezeTip.WF := by
  by_cases hp : ∃ snap, s.TipPending snap
  · obtain ⟨snap, hp⟩ := hp
    have hord := order_freeze_eq hwf hp
    have hnot : s.tipLen ∉ s.order := hwf.keys_eq ▸ hp.2.2
    have hnd : (s.order ++ [s.tipLen]).Nodup :=
      nodup_append.2 ⟨hwf.nodup, by simp, by
        intro a ha b hb
        rw [mem_singleton] at hb
        subst hb
        rintro rfl
        exact hnot ha⟩
    have hsuf := evictRecent_suffix (s.order ++ [s.tipLen]) boundaryKeep
    refine ⟨?_, ?_, hord ▸ hnd.sublist hsuf.sublist⟩
    · have hkeys : s.freezeTip.keys = (s.order ++ [s.tipLen]).filter
          fun n => decide (n ∈ s.freezeTip.order) := by
        rw [keys]
        conv_lhs => rw [freezeTip_of_pending hp]
        rw [keys_filter (p := fun n => decide (n ∈ _)), map_append]
        have := hwf.keys_eq
        rw [keys] at this
        rw [this, freezeTip_of_pending hp]
        rfl
      rw [hkeys, hord]
      exact filter_mem_suffix hnd hsuf
    · rw [hord, evictRecent]
      split
      · simp_all [boundaryKeep]
      · rw [length_drop]; omega
  · rw [freezeTip_of_not_pending (not_exists.1 hp)]
    exact ⟨hwf.keys_eq, hwf.cap, hwf.nodup⟩

@[simp] lemma freezeTip_tip (s : Store Ring) : s.freezeTip.tip = s.tip := by
  rw [freezeTip]; split <;> (try split) <;> simp_all

@[simp] lemma freezeTip_tipLen (s : Store Ring) : s.freezeTip.tipLen = s.tipLen := by
  rw [freezeTip]; split <;> (try split) <;> rfl

@[simp] lemma freezeTip_residentEnd (s : Store Ring) :
    s.freezeTip.residentEnd = s.residentEnd := by
  rw [freezeTip]; split <;> (try split) <;> rfl

variable {c : Nat}

/-- Freezing files nothing but the tip. -/
lemma mem_keys_freezeTip (h : c ∈ s.freezeTip.keys) :
    c ∈ s.keys ∨ (c = s.tipLen ∧ ∃ snap, s.TipPending snap) := by
  by_cases hp : ∃ snap, s.TipPending snap
  · obtain ⟨snap, hp⟩ := hp
    rw [keys, freezeTip_of_pending hp] at h
    obtain ⟨e, he, rfl⟩ := mem_map.1 h
    rcases mem_append.1 (mem_filter.1 he).1 with he | he
    · exact .inl (mem_map.2 ⟨e, he, rfl⟩)
    · grind
  · rw [freezeTip_of_not_pending (not_exists.1 hp)] at h
    exact .inl h

/-- The lookups a freeze leaves alone are those of the lengths it still lists. -/
lemma lookup_freezeTip (hwf : s.WF) (hp : s.TipPending snap) (hc : c ∈ s.freezeTip.order) :
    s.freezeTip.history.lookup c =
      if c ∈ s.keys then s.history.lookup c else if c = s.tipLen then some snap else none := by
  have hord := hc
  rw [order_freeze_eq hwf hp] at hord
  have hne : s.order.filter (fun n => n != s.tipLen) = s.order := by
    rw [filter_eq_self]
    intro n hn
    rw [bne_iff_ne]
    rintro rfl
    exact hp.2.2 (hwf.keys_eq ▸ hn)
  rw [freezeTip_of_pending hp]
  rw [hne, lookup_filter_of_keep (p := fun n => decide (n ∈ _)) (by simpa using hord),
    lookup_concat]
  rfl

lemma lookup_freezeTip_tipLen (hwf : s.WF) (hp : s.TipPending snap) :
    s.freezeTip.history.lookup s.tipLen = some snap := by
  rw [lookup_freezeTip hwf hp, if_neg hp.2.2, if_pos rfl]
  rw [order_freeze_eq hwf hp]
  exact mem_evictRecent_concat _ _

/-- **A freeze forgets no stop the scheduler still lists**, if the worker has room or the stop it
forgets is not listed any more. -/
theorem lookup_freezeTip_of_room (hwf : s.WF) {cuts : List Nat} (hroom : s.RoomOrForgotten cuts)
    (hc : c ∈ cuts) (hk : c ∈ s.keys) : s.freezeTip.history.lookup c = s.history.lookup c := by
  by_cases hp : ∃ snap, s.TipPending snap
  · obtain ⟨snap, hp⟩ := hp
    have hmem : c ∈ s.freezeTip.order := by
      rw [order_freeze_eq hwf hp, evictRecent]
      have hco : c ∈ s.order := hwf.keys_eq ▸ hk
      split
      · exact mem_append_left _ hco
      rename_i hlen
      rw [length_append, length_singleton] at hlen ⊢
      have hcap := hwf.cap
      rcases hroom with h | h | h | h
      · omega
      · rw [hp.1] at h; exact absurd h (by simp)
      · exact absurd h hp.2.2
      · have h1 : s.order.length + 1 - boundaryKeep = 1 := by omega
        cases hs : s.order with
        | nil => rw [hs] at hco; exact absurd hco (by simp)
        | cons o rest =>
          grind
    rw [lookup_freezeTip hwf hp hmem, if_pos hk]
  · rw [freezeTip_of_not_pending (not_exists.1 hp)]

/-- When a verify tip counts as slack past `start`. -/
lemma slack_spec {start : Nat} (h : s.verifyTipIsPinSlack start = true) :
    s.tip.isSome ∧ start < s.tipLen ∧ start ∉ s.keys ∧ s.tipLen ∉ s.keys ∧
      ∀ k ∈ s.keys, ¬(start < k ∧ k < s.tipLen) := by
  grind [verifyTipIsPinSlack]

/-! ## Restoring -/

/-- The snap a restore at `length` uses. -/
def snapsAt (s : Store Ring) (length : Nat) : Option (Paired Ring) :=
  if length = s.tipLen ∧ s.tip.isSome ∧ length ∉ s.keys then s.tip else s.history.lookup length

/-- The store after a successful restore. -/
def restored (s : Store Ring) (length : Nat) : Store Ring :=
  let s' := { s with
    residentEnd := length
    history := s.history.filter fun h => !decide (h.1 ∈ s.order ∧ length < h.1)
    order := s.order.filter fun n => decide (n ≤ length) }
  if length < s.tipLen then { s' with tip := none, tipLen := length } else s'

lemma restore_eq {Key : Type} (s : Store Ring) (live : Paired Ring) (length : Nat) :
    (s.restore live length : Except (BoundaryFault Key) _) = match s.snapsAt length with
      | none => .error (.restoreMissed length s.tipLen s.order)
      | some snap => .ok (s.restored length, snap.copyInto live) := rfl

lemma restored_history (s : Store Ring) (length : Nat) : (s.restored length).history =
    s.history.filter fun h => !decide (h.1 ∈ s.order ∧ length < h.1) := by
  rw [restored]; split <;> rfl

@[simp] lemma restored_order (s : Store Ring) (length : Nat) :
    (s.restored length).order = s.order.filter fun n => decide (n ≤ length) := by
  rw [restored]; split <;> rfl

lemma WF.restored (hwf : s.WF) (length : Nat) : (s.restored length).WF := by
  refine ⟨?_, ?_, ?_⟩
  · rw [keys, restored_history, restored_order,
      keys_filter (p := fun n => !decide (n ∈ s.order ∧ length < n))]
    have hk := hwf.keys_eq
    rw [keys] at hk
    rw [hk]
    refine filter_congr fun n hn => ?_
    by_cases h : n ≤ length
    · simp [h, not_lt.2 h]
    · simp [h, hn, Nat.lt_of_not_le h]
  · grind [restored_order, hwf.cap]
  · rw [restored_order]
    exact hwf.nodup.filter _

variable {length : Nat}

lemma mem_keys_restored (hwf : s.WF) (h : c ∈ (s.restored length).keys) :
    c ∈ s.keys ∧ c ≤ length := by
  rw [(hwf.restored length).keys_eq, restored_order, mem_filter, decide_eq_true_eq] at h
  exact ⟨hwf.keys_eq ▸ h.1, h.2⟩

lemma lookup_restored (hc : c ≤ length) :
    (s.restored length).history.lookup c = s.history.lookup c := by
  rw [restored_history]
  exact lookup_filter_of_keep (p := fun n => !decide (n ∈ s.order ∧ length < n))
    (by simp [not_lt.2 hc])

end Store

end Sglang.Sticky
