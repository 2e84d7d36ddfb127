import Mathlib.Tactic

/-!
# Jobs that grow in lockstep

A list of jobs shares a stock.  In each step every job takes one unit of the stock; a job that
has taken all it wants then leaves and gives back what it holds.  `advance` is one such step and
`after` a number of them.

Whether the stock ever runs out can be decided without running the steps: `Sweep` walks over the
list once and compares, at each job, what the jobs before it have given back with what the jobs
from there on will have taken when this one leaves.  `Sweep.pos` is the soundness of that walk.
The order of the list does not matter for it: a job that is listed too early is counted as taking
for longer than it does, and as giving back later.
-/

namespace Lib

/-- A job: how many units it still takes, and how many it holds. -/
@[ext] structure Job (K : Type*) where
  left : K
  held : K
  deriving DecidableEq, Repr

/-- The stock and the jobs that still run. -/
structure Lockstep (K : Type*) where
  free : K
  jobs : List (Job K)

variable {K : Type*} [CommRing K] [LinearOrder K]

namespace Lockstep

/-- What is left of the stock when every job has taken its unit of this step. -/
def low (s : Lockstep K) : K := s.free - s.jobs.length

/-- A job after one step. -/
def grow (x : Job K) : Job K := ⟨x.left - 1, x.held + 1⟩

/-- One step: every job takes one unit, and those that want no more leave. -/
def advance (s : Lockstep K) : Lockstep K where
  free := s.low + (((s.jobs.map grow).filter fun x => decide (x.left ≤ 0)).map Job.held).sum
  jobs := (s.jobs.map grow).filter fun x => decide (0 < x.left)

/-- The state after a number of steps. -/
def after (s : Lockstep K) : Nat → Lockstep K
  | 0 => s
  | t + 1 => (s.after t).advance

/-! ## The state in closed form -/

/-- A job that has run for `t` steps. -/
def aged (t : K) (x : Job K) : Job K := ⟨x.left - t, x.held + t⟩

/-- What a job has added to the stock after `t` steps: all it held at the start if it is gone, and
minus what it took otherwise. -/
def share (t : K) (x : Job K) : K := if x.left ≤ t then x.held else -t

/-- The jobs that still run after `t` steps. -/
def running (t : K) (ts : List (Job K)) : List (Job K) :=
  (ts.filter fun x => decide (t < x.left)).map (aged t)

end Lockstep

open List Lockstep

omit [LinearOrder K] in
lemma grow_aged (t : K) (x : Job K) : grow (aged t x) = aged (t + 1) x := by
  grind [grow, aged]

lemma running_cons (t : K) (x : Job K) (ts : List (Job K)) :
    running t (x :: ts) = if t < x.left then aged t x :: running t ts else running t ts := by
  by_cases h : t < x.left <;> simp [running, h]

lemma length_running_le (t : K) (ts : List (Job K)) : (running t ts).length ≤ ts.length := by
  simpa [running] using length_filter_le ..

variable [IsStrictOrderedRing K]

/-- One step takes the closed form at `t` to the one at `t + 1`. -/
lemma advance_running (t free : K) (ts : List (Job K)) :
    (Lockstep.mk (free + (ts.map (share t)).sum) (running t ts)).advance =
      ⟨free + (ts.map (share (t + 1))).sum, running (t + 1) ts⟩ := by
  induction ts generalizing free with
  | nil => simp [advance, low, running]
  | cons x ts ih =>
    have hfree := congrArg Lockstep.free (ih free)
    have hjobs := congrArg Lockstep.jobs (ih free)
    simp only [advance, low] at hfree hjobs
    simp only [advance, low, Lockstep.mk.injEq, running_cons, map_cons, sum_cons]
    -- a job is gone, leaves in this step, or goes on
    by_cases h : x.left ≤ t
    · grind [share]
    by_cases h' : x.left ≤ t + 1
    · rw [if_pos (not_le.1 h), if_neg (not_lt.2 h'), share, if_neg h, share, if_pos h']
      have hgrow : (grow (aged t x)).left ≤ 0 := by
        grind [grow_aged, aged]
      rw [map_cons, filter_cons_of_pos (by simpa using hgrow),
        filter_cons_of_neg (by simpa using hgrow), map_cons, sum_cons, length_cons, grow_aged, aged]
      push_cast
      exact ⟨by linarith, hjobs⟩
    · rw [if_pos (not_le.1 h), if_pos (not_le.1 h'), share, if_neg h, share, if_neg h']
      have hgrow : 0 < (grow (aged t x)).left := by
        grind [grow_aged, aged]
      rw [map_cons, filter_cons_of_neg (by simpa using hgrow),
        filter_cons_of_pos (by simpa using hgrow), length_cons, hjobs, grow_aged]
      push_cast
      exact ⟨by linarith, rfl⟩

/-- **The state after `t` steps**, in closed form. -/
theorem after_eq {s : Lockstep K} (h : ∀ x ∈ s.jobs, 0 < x.left) (t : Nat) :
    s.after t = ⟨s.free + (s.jobs.map (share (t : K))).sum, running (t : K) s.jobs⟩ := by
  induction t with
  | zero =>
    have hshare : s.jobs.map (share (0 : K)) = s.jobs.map fun _ => 0 :=
      map_congr_left fun x hx => by rw [share, if_neg (not_le.2 (h x hx)), neg_zero]
    have hrun : running (0 : K) s.jobs = s.jobs := by
      rw [running, filter_eq_self.2 fun x hx => by simpa using h x hx]
      exact (map_congr_left fun x _ => by ext <;> simp [aged]).trans (map_id _)
    rw [Lockstep.after, Nat.cast_zero, hshare, hrun]
    simp
  | succ t ih => rw [Lockstep.after, ih, advance_running, Nat.cast_add, Nat.cast_one]

/-! ## The sweep -/

/-- At each job of the list, what the jobs before it have given back covers what the jobs from
there on take until it leaves, with `reserve` units to spare for each of them. -/
def Sweep (reserve : K) : K → List (Job K) → Prop
  | _, [] => True
  | free, x :: xs => reserve * (xs.length + 1) < free - x.left * (xs.length + 1) ∧
      Sweep reserve (free + x.held) xs

variable {t : K}

/-- What a job adds to the low point of a step: nothing less than what it takes. -/
lemma le_share {x : Job K} (ht : 0 ≤ t) (hx : 0 ≤ x.held) : -t ≤ share t x := by
  grind [share]

variable {ts : List (Job K)}

lemma length_mul_le_sum_share (ht : 0 ≤ t) (h : ∀ x ∈ ts, 0 ≤ x.held) :
    -(t * ts.length) ≤ (ts.map (share t)).sum := by
  induction ts with
  | nil => simp
  | cons x ts ih =>
    have hx := le_share ht (h x (mem_cons_self ..))
    have hts := ih fun y hy => h y (mem_cons_of_mem _ hy)
    rw [map_cons, sum_cons, length_cons]
    push_cast
    linarith

variable {reserve : K}

lemma Sweep.low_pos (hr : 1 ≤ reserve) (ht : 0 ≤ t) {free : K} (h : Sweep reserve free ts)
    (hheld : ∀ x ∈ ts, 0 ≤ x.held) (hrun : running t ts ≠ []) :
    0 < free + (ts.map (share t)).sum - (running t ts).length := by
  -- the first job that still runs is the one whose comparison in the sweep is used
  induction ts generalizing free with
  | nil => exact absurd rfl hrun
  | cons x ts ih =>
    have hts : ∀ y ∈ ts, 0 ≤ y.held := fun y hy => hheld y (mem_cons_of_mem _ hy)
    rw [running_cons] at hrun ⊢
    rw [map_cons, sum_cons]
    by_cases hlt : t < x.left
    · rw [if_pos hlt, share, if_neg (not_le.2 hlt), length_cons]
      have hsum := length_mul_le_sum_share ht hts
      have hlen : ((running t ts).length : K) ≤ ts.length := by
        exact_mod_cast length_running_le t ts
      have hpos : (0 : K) < ts.length + 1 := by linarith
      have hsweep := h.1
      push_cast
      nlinarith
    · rw [if_neg hlt] at hrun ⊢
      rw [share, if_pos (not_lt.1 hlt), ← add_assoc]
      exact ih h.2 hts hrun

/-- **Soundness of the sweep.**  If it succeeds, the stock is never used up before the last job
leaves. -/
theorem Sweep.pos (hr : 1 ≤ reserve) {s : Lockstep K} (h : Sweep reserve s.free s.jobs)
    (hleft : ∀ x ∈ s.jobs, 0 < x.left) (hheld : ∀ x ∈ s.jobs, 0 ≤ x.held) (t : Nat)
    (hrun : (s.after t).jobs ≠ []) : 0 < (s.after t).low := by
  rw [after_eq hleft] at hrun ⊢
  exact h.low_pos hr (Nat.cast_nonneg t) hheld hrun

lemma Sweep.mono {free free' : K} (h : Sweep reserve free ts) (hle : free ≤ free') :
    Sweep reserve free' ts := by
  induction ts generalizing free free' with
  | nil => trivial
  | cons x ts ih => exact ⟨lt_of_lt_of_le h.1 (by linarith), ih h.2 (by linarith)⟩

end Lib
