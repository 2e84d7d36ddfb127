import Sglang.Lib.Runs

/-!
# The staging ring

`StagingAllocator` of `disaggregation/common/staging_buffer.py` is one large buffer on the decode
side, used as a ring.  `assign` overcommits: it hands out the next part of the ring, or the first
one of the next round, without looking whether that part is still in use.  Whether a part may be
written is decided by the prefill sessions, each with the newest watermark that has reached it
(`handle_watermark_msg` and `is_watermark_ready` of `staging_handler.py`); a watermark is the round
and the offset of the oldest allocation that is not freed.

`System` is the ring with any number of sessions.  Watermarks are messages: once sent they may be
delayed, lost, repeated or overtaken by later ones.

* `Ring.Ordered` is the invariant of the ring: live allocations are ordered by round and offset,
  and the watermark is at or in front of the oldest one.
* `System.Safe` adds the sessions: every watermark that was ever sent is at most the ring's own,
  which is what makes a stale watermark safe, and an allocation that was found writable is clear of
  all older ones.
* `staging_writers_disjoint`: two live allocations that were found writable do not overlap, and the
  oldest one can be written once the newest watermark has arrived.
* `staging_permission_kept`: live allocations lie in the ring, and a permission to write is not
  taken back later.
-/

namespace Sglang.Staging

open Lib List

/-- An entry of `allocations`. -/
structure Allocation where
  id : ℕ
  offset : ℕ
  size : ℕ
  round : ℕ
  deriving DecidableEq

def Allocation.stop (a : Allocation) : ℕ := a.offset + a.size

structure Watermark where
  round : ℕ
  tail : ℕ
  deriving DecidableEq

/-- The order of pairs. -/
def Watermark.le (v w : Watermark) : Prop := v.round < w.round ∨ v.round = w.round ∧ v.tail ≤ w.tail

instance (v w : Watermark) : Decidable (v.le w) := inferInstanceAs (Decidable (_ ∨ _))

/-- `StagingAllocator`; the dictionary of allocations is the list of its entries. -/
structure Ring where
  totalSize : ℕ
  head : ℕ
  round : ℕ
  allocations : List Allocation
  allocOrder : List ℕ
  nextAllocId : ℕ
  watermark : Watermark

def Ring.start (totalSize : ℕ) : Ring := ⟨totalSize, 0, 0, [], [], 0, ⟨0, 0⟩⟩

/-- A new entry at `offset` of the current round. -/
def Ring.add (r : Ring) (offset size : ℕ) : Ring :=
  { r with
    head := offset + size
    allocations := r.allocations ++ [⟨r.nextAllocId, offset, size, r.round⟩]
    allocOrder := r.allocOrder ++ [r.nextAllocId]
    nextAllocId := r.nextAllocId + 1 }

/-- `assign` -/
def Ring.assign (r : Ring) (requiredBytes : ℕ) : Option Ring :=
  if r.totalSize < requiredBytes then none
  else if requiredBytes ≤ r.totalSize - r.head then some (r.add r.head requiredBytes)
  else some ({ r with round := r.round + 1 }.add 0 requiredBytes)

/-- `free` -/
def Ring.free (r : Ring) (id : ℕ) : Ring :=
  if ∀ a ∈ r.allocations, a.id ≠ id then r
  else
    let allocations := r.allocations.filter (·.id ≠ id)
    let allocOrder := r.allocOrder.dropWhile fun i => ∀ a ∈ allocations, a.id ≠ i
    let r := { r with allocations, allocOrder }
    if allocations = [] then
      { r with round := r.round + 1, head := 0, watermark := ⟨r.round + 1, 0⟩ }
    else
      match allocOrder with
      | [] => r
      | i :: _ =>
        match allocations.find? (·.id = i) with
        | none => r
        | some a => { r with watermark := ⟨a.round, a.offset⟩ }

/-- `is_watermark_ready`, with the watermark that the session knows. -/
def isWatermarkReady (w : Watermark) (a : Allocation) : Prop :=
  a.round = 0 ∨ a.round - 1 < w.round ∨ a.round - 1 = w.round ∧ a.stop ≤ w.tail

instance (w : Watermark) (a : Allocation) : Decidable (isWatermarkReady w a) :=
  inferInstanceAs (Decidable (_ ∨ _))

/-- `handle_watermark_msg` -/
def handleWatermarkMsg (prev msg : Watermark) : Watermark := if msg.le prev then prev else msg

/-- The ring with the prefill sessions. -/
structure System where
  ring : Ring
  /-- the watermarks that were sent -/
  sent : List Watermark
  remoteWatermarks : ℕ → Watermark
  /-- the watermarks that reached a session -/
  delivered : ℕ → List Watermark
  /-- the allocations that some session found writable -/
  writable : List ℕ

def System.start (totalSize : ℕ) : System where
  ring := .start totalSize
  sent := []
  remoteWatermarks _ := ⟨0, 0⟩
  delivered _ := []
  writable := []

inductive Op
  | assign (requiredBytes : ℕ)
  | free (id : ℕ)
  /-- the watermark of this moment is sent -/
  | send
  /-- a watermark that was sent reaches a session, perhaps once more -/
  | deliver (session : ℕ) (w : Watermark)
  /-- a session looks whether it may write -/
  | check (session : ℕ) (a : Allocation)

def System.next (s : System) : Op → Option System
  | .assign requiredBytes => (s.ring.assign requiredBytes).map ({ s with ring := · })
  | .free id => some { s with ring := s.ring.free id }
  | .send => some { s with sent := s.ring.watermark :: s.sent }
  | .deliver session w =>
    if w ∈ s.sent then
      some { s with
        remoteWatermarks := fun i => if i = session then
          handleWatermarkMsg (s.remoteWatermarks i) w else s.remoteWatermarks i
        delivered := fun i => if i = session then w :: s.delivered i else s.delivered i }
    else none
  | .check session a =>
    if a ∈ s.ring.allocations ∧ isWatermarkReady (s.remoteWatermarks session) a then
      some { s with writable := a.id :: s.writable }
    else none

/-! ## The order of allocations -/

@[grind =]
lemma Watermark.le_iff {v w : Watermark} :
    v.le w ↔ v.round < w.round ∨ v.round = w.round ∧ v.tail ≤ w.tail := Iff.rfl

lemma Watermark.le.refl (w : Watermark) : w.le w := .inr ⟨rfl, Nat.le_refl _⟩

lemma Watermark.le_trans {u v w : Watermark} (h : u.le v) (h' : v.le w) : u.le w := by grind

/-- `a` is in front of `b`. -/
def Allocation.Before (a b : Allocation) : Prop :=
  a.round < b.round ∨ a.round = b.round ∧ a.stop ≤ b.offset

/-- The place of an allocation, as a watermark. -/
def Allocation.place (a : Allocation) : Watermark := ⟨a.round, a.offset⟩

/-- The live allocations are in the order of their places and of their numbers, which `allocOrder`
has as well, and the watermark is in front of the oldest one and in its round. -/
structure Ring.Ordered (r : Ring) : Prop where
  before : r.allocations.Pairwise Allocation.Before
  ids : r.allocations.Pairwise fun a b => a.id < b.id
  next : ∀ a ∈ r.allocations, a.id < r.nextAllocId
  last : ∀ a ∈ r.allocations, a.round < r.round ∨ a.round = r.round ∧ a.stop ≤ r.head
  order : r.allocOrder.Pairwise (· < ·)
  ordered : ∀ a ∈ r.allocations, a.id ∈ r.allocOrder
  orderNext : ∀ i ∈ r.allocOrder, i < r.nextAllocId
  watermark : ∀ a ∈ r.allocations, r.watermark.le a.place
  round : r.watermark.round ≤ r.round
  oldest : ∀ a ∈ r.allocations.head?, r.watermark.round = a.round
  empty : r.allocations = [] → r.head = 0 ∧ r.watermark = ⟨r.round, 0⟩

lemma Ring.Ordered.start (totalSize : ℕ) : (Ring.start totalSize).Ordered := by
  constructor <;> simp [Ring.start]

variable {r r' : Ring} {n : ℕ}

lemma Ring.Ordered.add {offset : ℕ} (h : r.Ordered)
    (hplace : ∀ a ∈ r.allocations, a.round < r.round ∨ a.round = r.round ∧ a.stop ≤ offset)
    (hold : r.allocations = [] → r.watermark = ⟨r.round, 0⟩)
    (hw : r.allocations ≠ [] → r.watermark.le ⟨r.round, offset⟩) : (r.add offset n).Ordered := by
  obtain ⟨hb, hi, hn, hl, ho, hord, hon, hwm, hr, hold', -⟩ := h
  constructor <;> simp only [Ring.add]
  · simpa [pairwise_append, hb, Allocation.Before] using hplace
  · simpa [pairwise_append, hi] using hn
  · grind
  · grind [Allocation.stop]
  · simpa [pairwise_append, ho] using hon
  · grind
  · grind
  · grind [Allocation.place]
  · exact hr
  · cases hl : r.allocations <;> simp_all
  · simp

lemma Ring.Ordered.assign (h : r.Ordered) (hr : r.assign n = some r') : r'.Ordered := by
  obtain ⟨hlarge, hr⟩ := Option.ite_none_left_eq_some.1 hr
  split at hr
  · cases hr
    refine h.add h.last (fun he => (h.empty he).2) fun hne => ?_
    obtain ⟨a, ha⟩ := exists_mem_of_ne_nil _ hne
    have := h.watermark a ha
    have := h.last a ha
    grind [Allocation.place, Allocation.stop]
  · rename_i hsmall
    cases hr
    have hne : r.allocations ≠ [] := fun he => hsmall (by rw [(h.empty he).1]; omega)
    refine Ring.Ordered.add (r := { r with round := r.round + 1 })
      { h with last := ?_, round := Nat.le_succ_of_le h.round, empty := fun he => absurd he hne }
      ?_ (fun he => absurd he hne) fun _ => ?_
    · exact fun a ha => .inl (by have := h.last a ha; grind)
    · exact fun a ha => .inl (by have := h.last a ha; grind)
    · exact .inl (Nat.lt_succ_of_le h.round)

/-- The first of the order that is still live is the oldest allocation. -/
lemma find?_dropWhile : ∀ {order : List ℕ} {l : List Allocation}, order.Pairwise (· < ·) →
    l.Pairwise (fun a b => a.id < b.id) → (∀ a ∈ l, a.id ∈ order) → ∀ i rest,
    order.dropWhile (fun i => ∀ a ∈ l, a.id ≠ i) = i :: rest → l.find? (·.id = i) = l.head?
  | [], _, _, _, _, _, _, h => by cases h
  | j :: order, l, ho, hl, hmem, i, rest, h => by
    rw [dropWhile_cons] at h
    split at h
    · rename_i hj
      refine find?_dropWhile (pairwise_cons.1 ho).2 hl (fun a ha => ?_) _ _ h
      have := hmem a ha
      grind
    · rename_i hj
      cases h
      cases l with
      | nil => simp at hj
      | cons a l =>
        have := hmem a (by simp)
        rw [pairwise_cons] at ho hl
        grind

lemma mem_dropWhile {p : ℕ → Bool} {i : ℕ} : ∀ {l : List ℕ}, i ∈ l → p i = false →
    i ∈ l.dropWhile p
  | j :: l, h, hp => by
    have := mem_dropWhile (l := l) (i := i) (p := p)
    grind [dropWhile_cons]

/-- What `free` does to an allocation that is there. -/
lemma Ring.Ordered.free_cases (h : r.Ordered) (id : ℕ) : r.free id = r ∨
    ∃ l order, l = r.allocations.filter (·.id ≠ id) ∧ (order.Pairwise (· < ·) ∧
        (∀ i ∈ order, i ∈ r.allocOrder) ∧ ∀ a ∈ l, a.id ∈ order) ∧
      (l = [] ∧ r.free id =
          { r with allocations := l, allocOrder := order, round := r.round + 1, head := 0
                   watermark := ⟨r.round + 1, 0⟩ } ∨ ∃ a, l.head? = some a ∧ r.free id =
          { r with allocations := l, allocOrder := order, watermark := a.place }) := by
  by_cases hid : ∀ a ∈ r.allocations, a.id ≠ id
  · exact .inl (if_pos hid)
  rw [Ring.free, if_neg hid]
  dsimp only
  have hl : ∀ a ∈ r.allocations.filter (·.id ≠ id), a.id ∈ r.allocOrder := fun a ha =>
    h.ordered a (mem_of_mem_filter ha)
  have hids := h.ids.filter (·.id ≠ id)
  generalize r.allocations.filter (·.id ≠ id) = l at hl hids ⊢
  have hkeep : ∀ a ∈ l, a.id ∈ r.allocOrder.dropWhile fun i => ∀ a ∈ l, a.id ≠ i :=
    fun a ha => mem_dropWhile (hl a ha) (by simpa using ⟨a, ha, rfl⟩)
  have hfind := find?_dropWhile h.order hids hl
  refine .inr ⟨l, _, rfl, ⟨h.order.sublist (dropWhile_sublist _),
    fun i hi => (dropWhile_sublist _).subset hi, hkeep⟩, ?_⟩
  generalize r.allocOrder.dropWhile (fun i => ∀ a ∈ l, a.id ≠ i) = order at hkeep hfind ⊢
  cases l with
  | nil => exact .inl ⟨rfl, rfl⟩
  | cons a l =>
    cases order with
    | nil => simpa using hkeep a
    | cons i rest => exact .inr ⟨a, rfl, by simp [hfind i rest rfl, Allocation.place]⟩

lemma Ring.Ordered.free (h : r.Ordered) (id : ℕ) :
    (r.free id).Ordered ∧ r.watermark.le (r.free id).watermark ∧
      (r.free id).allocations.Sublist r.allocations ∧
      (r.free id).nextAllocId = r.nextAllocId := by
  rcases h.free_cases id with he | ⟨l, order, rfl, ⟨ho, hsub, hmem⟩, ⟨hnil, he⟩ | ⟨a, ha, he⟩⟩
  · grind
  · rw [he, hnil]
    refine ⟨?_, .inl (Nat.lt_succ_of_le h.round), nil_sublist _, rfl⟩
    constructor <;> simp [*]
    exact fun i hi => h.orderNext i (hsub i hi)
  · have hs : (r.allocations.filter (·.id ≠ id)).Sublist r.allocations := filter_sublist
    rw [he]
    generalize r.allocations.filter (·.id ≠ id) = l at ha hs hmem ⊢
    have hin := hs.subset (mem_of_head? ha)
    have hb := h.before.sublist hs
    refine ⟨⟨hb, h.ids.sublist hs, fun b hb => h.next b (hs.subset hb),
      fun b hb => h.last b (hs.subset hb), ho, hmem, fun i hi => h.orderNext i (hsub i hi),
      ?_, ?_, by simp [ha, Allocation.place], fun hl => by grind⟩, h.watermark a hin, hs, rfl⟩
    · cases l with
      | nil => simp
      | cons c l =>
        obtain rfl : c = a := by simpa using ha
        have hc := (pairwise_cons.1 hb).1
        grind [Allocation.Before, Allocation.place, Allocation.stop]
    · grind [h.last a hin, Allocation.place]

/-! ## Runs -/

/-- A writable allocation is clear of the older ones, and no session is ahead of the ring. -/
structure System.Safe (s : System) : Prop where
  ordered : s.ring.Ordered
  sent : ∀ w ∈ s.sent, w.le s.ring.watermark
  remote : ∀ i, (s.remoteWatermarks i).le s.ring.watermark
  delivered : ∀ i, ∀ w ∈ s.delivered i, w.le (s.remoteWatermarks i)
  known : ∀ i ∈ s.writable, i < s.ring.nextAllocId
  clear : s.ring.allocations.Pairwise fun a b =>
    b.id ∈ s.writable → a.round = b.round ∨ b.stop ≤ a.offset

lemma System.Safe.start (totalSize : ℕ) : (System.start totalSize).Safe :=
  ⟨.start _, nofun, fun _ => .refl _, nofun, nofun, .nil⟩

/-- Writing is safe once a watermark that is not ahead of the ring allows it. -/
lemma clear_of_ready {w : Watermark} {a b : Allocation} (hab : a.Before b) (hw : w.le a.place)
    (hr : isWatermarkReady w b) : a.round = b.round ∨ b.stop ≤ a.offset := by
  grind [Allocation.Before, Allocation.place, isWatermarkReady]

/-- A session never forgets a watermark for an older one. -/
lemma le_handleWatermarkMsg {prev msg : Watermark} : prev.le (handleWatermarkMsg prev msg) := by
  grind [handleWatermarkMsg]

lemma handleWatermarkMsg_spec {prev msg v : Watermark} (hp : prev.le v) (hm : msg.le v) :
    (handleWatermarkMsg prev msg).le v ∧ prev.le (handleWatermarkMsg prev msg) ∧
      msg.le (handleWatermarkMsg prev msg) := by
  refine ⟨?_, le_handleWatermarkMsg, ?_⟩ <;> grind [handleWatermarkMsg]

lemma System.Safe.next {s s' : System} {op : Op} (h : s.Safe) (hs : s.next op = some s') :
    s'.Safe := by
  cases op with
  | assign requiredBytes =>
    obtain ⟨r, hr, rfl⟩ := Option.map_eq_some_iff.1 hs
    have hnew : r.watermark = s.ring.watermark ∧ r.nextAllocId = s.ring.nextAllocId + 1 ∧
        ∃ a, a.id = s.ring.nextAllocId ∧ r.allocations = s.ring.allocations ++ [a] := by
      grind [Ring.assign, Ring.add]
    obtain ⟨hw, hn, a, ha, hl⟩ := hnew
    refine ⟨h.ordered.assign hr, by simpa [hw] using h.sent, by simpa [hw] using h.remote,
      h.delivered, fun i hi => ?_, ?_⟩
    · grind [h.known i hi]
    · have := h.known a.id
      rw [hl]
      simp only [pairwise_append, h.clear]
      grind
  | free id =>
    cases hs
    obtain ⟨ho, hw, hl, hn⟩ := h.ordered.free id
    exact ⟨ho, fun w hm => Watermark.le_trans (h.sent w hm) hw,
      fun i => Watermark.le_trans (h.remote i) hw,
      h.delivered, fun i hi => hn ▸ h.known i hi, h.clear.sublist hl⟩
  | send =>
    cases hs
    exact { h with sent := fun w hw => (mem_cons.1 hw).elim (by grind) (h.sent w) }
  | deliver session w =>
    obtain ⟨hw, hs⟩ := Option.ite_none_right_eq_some.1 hs
    cases hs
    have hspec := fun i => handleWatermarkMsg_spec (h.remote i) (h.sent w hw)
    have := h.remote
    have := h.delivered
    refine { h with remote := fun i => ?_, delivered := fun i v hv => ?_ }
    · grind
    · grind
  | check session a =>
    obtain ⟨⟨ha, hr⟩, hs⟩ := Option.ite_none_right_eq_some.1 hs
    cases hs
    refine { h with known := fun i hi => ?_, clear := ?_ }
    · exact (mem_cons.1 hi).elim (· ▸ h.ordered.next a ha) (h.known i)
    · have hpair := (h.clear.and h.ordered.before).and h.ordered.ids
      refine hpair.imp_of_mem fun {x y} hx hy hxy hmem => ?_
      rcases mem_cons.1 hmem with hid | hmem
      · obtain rfl : y = a := inj_on_of_nodup_map
          (pairwise_map.2 (h.ordered.ids.imp Nat.ne_of_lt)) hy ha hid
        exact clear_of_ready hxy.1.2
          (Watermark.le_trans (h.remote session) (h.ordered.watermark x hx)) hr
      · exact hxy.1.1 hmem

/-- **Writers do not overlap, and a fresh watermark lets the oldest allocation be written**: in
every run, with watermarks delayed, lost, repeated or reordered, live allocations that were found
writable are disjoint, and a session that the newest watermark has reached may write a live
allocation once all earlier ones are freed. -/
theorem staging_writers_disjoint {totalSize : ℕ} {s : System}
    (hrun : Run System.next (fun _ _ => True) (.start totalSize) s) :
    (∀ a ∈ s.ring.allocations, ∀ b ∈ s.ring.allocations, a ≠ b → a.id ∈ s.writable →
      b.id ∈ s.writable → a.stop ≤ b.offset ∨ b.stop ≤ a.offset) ∧
    ∀ a ∈ s.ring.allocations, (∀ b ∈ s.ring.allocations, a.id ≤ b.id) → ∀ session,
      s.ring.watermark ∈ s.delivered session →
      isWatermarkReady (s.remoteWatermarks session) a := by
  have h : s.Safe := hrun.invariant (.start _) fun _ _ _ h _ hs => h.next hs
  refine ⟨fun a ha b hb hab hwa hwb => ?_, fun a ha hold session hdel => ?_⟩
  · let R (a b : Allocation) : Prop := a.id ∈ s.writable → b.id ∈ s.writable →
      a.stop ≤ b.offset ∨ b.stop ≤ a.offset
    have hsymm : Std.Symm R := ⟨fun a b h hb ha => (h ha hb).symm⟩
    have hpair : s.ring.allocations.Pairwise R :=
      (h.clear.and h.ordered.before).imp fun h _ hb => by grind [Allocation.Before]
    exact hpair.forall ha hb hab hwa hwb
  · have hfirst : s.ring.allocations.head? = some a := by
      have hids := h.ordered.ids
      cases hl : s.ring.allocations <;> grind [pairwise_cons]
    have hle := h.delivered session _ hdel
    have := h.ordered.oldest a hfirst
    grind [isWatermarkReady]

/-- The ring wraps around: the third allocation is at the place of the first one and becomes
writable when that is freed and the watermark has arrived. -/
theorem staging_writers_disjoint_after_wrap :
    ∃ s, Run System.next (fun _ _ => True) (.start 10) s ∧ s.writable = [2, 1] ∧
      (∀ a ∈ s.ring.allocations, ∀ b ∈ s.ring.allocations, a ≠ b → a.id ∈ s.writable →
        b.id ∈ s.writable → a.stop ≤ b.offset ∨ b.stop ≤ a.offset) := by
  exact Run.exists_of [.assign 4, .assign 4, .assign 4, .check 0 ⟨1, 4, 4, 0⟩, .free 0, .send,
    .deliver 0 ⟨0, 4⟩, .check 0 ⟨2, 0, 4, 1⟩] (p := fun s => s.writable = [2, 1]) (by decide)
    (by decide) fun s hrun hs => ⟨hs, (staging_writers_disjoint hrun).1⟩

/-- What is handed out of a ring of `total` bytes lies in it. -/
def Ring.Inside (total : ℕ) (r : Ring) : Prop :=
  r.totalSize = total ∧ r.head ≤ total ∧ ∀ a ∈ r.allocations, a.stop ≤ total

variable {total : ℕ}

lemma Ring.Inside.add {offset : ℕ} (h : r.Inside total) (hfit : offset + n ≤ total) :
    (r.add offset n).Inside total := by
  refine ⟨h.1, hfit, fun a ha => ?_⟩
  rcases mem_append.1 ha with ha | ha
  · exact h.2.2 a ha
  · rw [mem_singleton.1 ha]
    exact hfit

lemma Ring.Inside.assign (h : r.Inside total) (hr : r.assign n = some r') : r'.Inside total := by
  obtain ⟨hsize, hhead, hall⟩ := h
  obtain ⟨hlarge, hr⟩ := Option.ite_none_left_eq_some.1 hr
  split at hr
  · cases hr
    exact Ring.Inside.add ⟨hsize, hhead, hall⟩ (by omega)
  · cases hr
    exact Ring.Inside.add ⟨hsize, hhead, hall⟩ (by omega)

/-- `free` only drops an allocation; the head stays or goes back to the front. -/
lemma Ring.Inside.free (h : r.Inside total) (hord : r.Ordered) (id : ℕ) :
    (r.free id).Inside total := by
  obtain ⟨hsize, hhead, hall⟩ := h
  have hsub := (hord.free id).2.2.1
  have hkeep : (r.free id).totalSize = r.totalSize ∧ (r.free id).head ≤ r.head := by
    rcases hord.free_cases id with he | ⟨l, order, -, -, ⟨-, he⟩ | ⟨a, -, he⟩⟩ <;> rw [he]
    · exact ⟨rfl, Nat.le_refl _⟩
    · exact ⟨rfl, Nat.zero_le _⟩
    · exact ⟨rfl, Nat.le_refl _⟩
  exact ⟨hkeep.1.trans hsize, hkeep.2.trans hhead, fun a ha => hall a (hsub.subset ha)⟩

lemma System.Safe.next_inside {s s' : System} {op : Op} (hsafe : s.Safe)
    (h : s.ring.Inside total) (hs : s.next op = some s') : s'.ring.Inside total := by
  cases op with
  | assign requiredBytes =>
    obtain ⟨r, hr, rfl⟩ := Option.map_eq_some_iff.1 hs
    exact h.assign hr
  | free id =>
    cases hs
    exact h.free hsafe.ordered id
  | send =>
    cases hs
    exact h
  | deliver session w =>
    obtain ⟨-, hs⟩ := Option.ite_none_right_eq_some.1 hs
    cases hs
    exact h
  | check session a =>
    obtain ⟨-, hs⟩ := Option.ite_none_right_eq_some.1 hs
    cases hs
    exact h

lemma System.next_remote {s s' : System} {op : Op} (hs : s.next op = some s') (i : ℕ) :
    (s.remoteWatermarks i).le (s'.remoteWatermarks i) := by
  cases op with
  | assign requiredBytes =>
    obtain ⟨r, -, rfl⟩ := Option.map_eq_some_iff.1 hs
    exact .refl _
  | free id =>
    cases hs
    exact .refl _
  | send =>
    cases hs
    exact .refl _
  | deliver session w =>
    obtain ⟨-, hs⟩ := Option.ite_none_right_eq_some.1 hs
    cases hs
    dsimp only
    split
    · exact le_handleWatermarkMsg
    · exact .refl _
  | check session a =>
    obtain ⟨-, hs⟩ := Option.ite_none_right_eq_some.1 hs
    cases hs
    exact .refl _

/-- A later watermark allows what an earlier one does. -/
lemma isWatermarkReady.mono {v w : Watermark} {a : Allocation} (h : isWatermarkReady v a)
    (hle : v.le w) : isWatermarkReady w a := by
  rcases h with hround | hlt | ⟨heq, htail⟩
  · exact .inl hround
  · refine .inr (.inl ?_)
    grind
  · rcases hle with hlt | ⟨hround, hle⟩
    · exact .inr (.inl (heq ▸ hlt))
    · exact .inr (.inr ⟨heq.trans hround, htail.trans hle⟩)

/-- **A permission to write is inside the ring and is not taken back**: in every run live
allocations end before the ring does, and what a session may write it may write from then on. -/
theorem staging_permission_kept {totalSize : ℕ} {s s' : System}
    (hrun : Run System.next (fun _ _ => True) (.start totalSize) s)
    (hrun' : Run System.next (fun _ _ => True) s s') :
    (∀ a ∈ s'.ring.allocations, a.stop ≤ totalSize) ∧ ∀ i a,
      isWatermarkReady (s.remoteWatermarks i) a → isWatermarkReady (s'.remoteWatermarks i) a := by
  have hin := (hrun.trans hrun').invariant (I := fun s => s.Safe ∧ s.ring.Inside totalSize)
    ⟨.start _, rfl, Nat.zero_le _, fun _ h => absurd h not_mem_nil⟩
    fun _ _ _ h _ hs => ⟨h.1.next hs, h.1.next_inside h.2 hs⟩
  have hle := hrun'.invariant
    (I := fun s' => ∀ i, (s.remoteWatermarks i).le (s'.remoteWatermarks i))
    (fun _ => .refl _)
    fun _ _ _ h _ hs i => Watermark.le_trans (h i) (System.next_remote hs i)
  exact ⟨hin.2.2.2, fun i a hready => hready.mono (hle i)⟩

/-- The second allocation wraps around and may be written once the first one is freed and session 0
knows it.  It still may when the watermark of the empty ring, which was sent long before, arrives
late and a third allocation is made behind it. -/
theorem staging_permission_kept_after_wrap :
    ∃ s, Run System.next (fun _ _ => True) (.start 10) s ∧
      (isWatermarkReady (s.remoteWatermarks 0) ⟨1, 0, 6, 1⟩ ∧
        ∃ s', Run System.next (fun _ _ => True) s s' ∧
          (s'.delivered 0 = [⟨0, 0⟩, ⟨1, 0⟩] ∧
            s'.ring.allocations = [⟨1, 0, 6, 1⟩, ⟨2, 6, 4, 1⟩]) ∧
          (∀ a ∈ s'.ring.allocations, a.stop ≤ 10) ∧
          isWatermarkReady (s'.remoteWatermarks 0) ⟨1, 0, 6, 1⟩) := by
  let later : List Op := [.deliver 0 ⟨0, 0⟩, .assign 4]
  refine Run.exists_of [.send, .assign 6, .assign 6, .free 0, .send, .deliver 0 ⟨1, 0⟩]
    (p := fun s => isWatermarkReady (s.remoteWatermarks 0) ⟨1, 0, 6, 1⟩ ∧
      okList System.next (fun _ _ => True) s later ∧
      (runList System.next s later).any (fun s' => s'.delivered 0 = [⟨0, 0⟩, ⟨1, 0⟩] ∧
        s'.ring.allocations = [⟨1, 0, 6, 1⟩, ⟨2, 6, 4, 1⟩]) = true) (by decide) (by decide) ?_
  intro s hrun ⟨hready, hok, hlater⟩
  refine ⟨hready, Run.exists_of later hok hlater fun s' hrun' hs' => ?_⟩
  obtain ⟨hin, hkept⟩ := staging_permission_kept hrun hrun'
  exact ⟨hs', hin, hkept 0 _ hready⟩

end Sglang.Staging
