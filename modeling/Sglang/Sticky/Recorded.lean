import Mathlib.Tactic

/-!
# Token ids and recorded stops

The one-slot cache of `sticky_last_sequence.py` decides what a new request may reuse by comparing
token ids: the ids it pinned at the end of the last request, and the *cuts*, the lengths at which
the worker took a snapshot on the way there.  This file holds the part of that module that reads
nothing else — no KV record, no pool, no disk:

* `evictRecent` keeps the newest stops, and is shared by both sides (`sm70_csa2_boundary.py`);
* `isExactContinuation` and `longestCut` are the two tests a lookup makes;
* `noteCut`, `abortedPrefixLen` and `abortedCuts` are the three updates of the list of cuts.

Every one of them comes with a lemma saying which lengths can be in its result and why, so the
protocol proofs never unfold a filter or a fold.
-/

namespace Sglang.Sticky

open List

/-- A token id.  `array("q")` holds signed 64-bit integers; only equality is ever used. -/
abbrev Token := Int

/-- `BOUNDARY_KEEP`: the newest stops kept, by the scheduler and by the worker alike. -/
def boundaryKeep : Nat := 32

/-- Keep the newest `keep` lengths, preserving order. -/
def evictRecent (lengths : List Nat) (keep : Nat) : List Nat :=
  if keep = 0 ∨ lengths.length ≤ keep then lengths else lengths.drop (lengths.length - keep)

variable (cuts : List Nat)

/-- Longest recorded stop that is a proper prefix of both sequences; `0` if there is none. -/
def longestCut (newIds lastIds : List Token) : Nat :=
  cuts.foldl (fun best length =>
    if length = 0 ∨ lastIds.length ≤ length ∨ min newIds.length lastIds.length < length then best
    else if best < length ∧ newIds.take length = lastIds.take length then length else best) 0

/-- The new ids start with the whole pinned sequence. -/
def isExactContinuation (newIds lastIds : List Token) : Bool :=
  if lastIds.length = 0 ∨ newIds.length < lastIds.length then false
  else newIds.take lastIds.length == lastIds

variable (previous : Option (List Token))

/-- `_note_cut`: forget the stops the new ids do not share with the previous pin, then record a
stop at `stop`, or at the end of the ids when no stop is given. -/
def noteCut (ids : List Token)
    (stop : Option Nat) : List Nat :=
  let kept := cuts.filter fun length => previous.all fun prev =>
    decide (length ≤ ids.length) && ids.take length == prev.take length
  let length := stop.getD ids.length
  if length = 0 ∨ ids.length < length then kept
  else evictRecent (kept.filter (fun cut => cut != length) ++ [length]) boundaryKeep

/-- The longest stop an aborted prefill may keep: a recorded cut, or the end of the chunk that
just ran and is not recorded yet, as long as the row holds it. -/
def abortedPrefixLen (limit : Nat) (extendEnd : Option Nat) : Nat :=
  let best := cuts.foldl (fun best length =>
    if 0 < length ∧ length ≤ limit ∧ best < length then length else best) 0
  match extendEnd with
  | none => best
  | some stop => if 0 < stop ∧ stop ≤ limit ∧ best < stop then stop else best

/-- The cuts kept when an aborted request is pinned at `pinLen`. -/
def abortedCuts (ids : List Token)
    (pinLen : Nat) : List Nat :=
  let kept := cuts.filter fun length =>
    decide (0 < length) && decide (length ≤ pinLen) &&
      previous.all fun prev => ids.take length == prev.take length
  evictRecent (if pinLen ∈ kept then kept else kept ++ [pinLen]) boundaryKeep

/-! ## `evictRecent` -/

lemma evictRecent_suffix (l : List Nat) (k : Nat) : evictRecent l k <:+ l := by
  grind [evictRecent, drop_suffix]

variable {c : Nat}

lemma mem_of_mem_evictRecent {l : List Nat} {k : Nat} (h : c ∈ evictRecent l k) : c ∈ l :=
  (evictRecent_suffix l k).subset h

lemma mem_evictRecent_concat (l : List Nat) (c : Nat) :
    c ∈ evictRecent (l ++ [c]) boundaryKeep := by
  grind [evictRecent]

/-! ## The two tests of a lookup -/

/-- A fold that takes the longest of the lengths with `P` it has seen. -/
lemma foldl_best {P : Nat → Prop} {f : Nat → Nat → Nat}
    (hf : ∀ best length, (P length ∧ best < length ∧ f best length = length) ∨
      ((P length → length ≤ best) ∧ f best length = best)) :
    ∀ (l : List Nat) (best : Nat), best ≤ l.foldl f best ∧
      (l.foldl f best = best ∨ l.foldl f best ∈ l ∧ P (l.foldl f best)) ∧
      ∀ c ∈ l, P c → c ≤ l.foldl f best
  | [], best => by simp
  | c :: l, best => by
    obtain ⟨hle, hmem, hmax⟩ := foldl_best hf l (f best c)
    rw [foldl_cons]
    have hc := hf best c
    refine ⟨by omega, ?_, ?_⟩
    · rcases hmem with heq | ⟨hmem, hP⟩
      · grind
      · exact .inr ⟨mem_cons_of_mem _ hmem, hP⟩
    · rintro x hx hP
      rcases mem_cons.1 hx with rfl | hx
      · rcases hc with ⟨-, -, hc⟩ | ⟨hx, hc⟩
        · omega
        · exact le_trans (hx hP) (by omega)
      · exact hmax x hx hP

variable {newIds lastIds : List Token}

lemma isExactContinuation_iff :
    isExactContinuation newIds lastIds = true ↔
      lastIds ≠ [] ∧ newIds.take lastIds.length = lastIds := by
  grind [isExactContinuation]

lemma length_le_of_isExactContinuation (h : isExactContinuation newIds lastIds = true) :
    lastIds.length ≤ newIds.length := by
  have hlen := congrArg List.length (isExactContinuation_iff.1 h).2
  rw [length_take] at hlen
  omega

/-- A cut a lookup may resume at: recorded, a proper prefix of the pin, shared by the new ids. -/
def IsSharedCut (newIds lastIds : List Token) (length : Nat) : Prop :=
  length ∈ cuts ∧ 0 < length ∧ length < lastIds.length ∧ length ≤ newIds.length ∧
    newIds.take length = lastIds.take length

/-- **What `longestCut` finds**: the longest shared cut, if there is one. -/
theorem longestCut_best (newIds lastIds : List Token) :
    (longestCut cuts newIds lastIds = 0 ∨
      IsSharedCut cuts newIds lastIds (longestCut cuts newIds lastIds)) ∧
      ∀ c, IsSharedCut cuts newIds lastIds c → c ≤ longestCut cuts newIds lastIds := by
  obtain ⟨-, hmem, hmax⟩ := foldl_best (P := fun length => 0 < length ∧ length < lastIds.length ∧
    length ≤ newIds.length ∧ newIds.take length = lastIds.take length) (f := fun best length =>
      if length = 0 ∨ lastIds.length ≤ length ∨ min newIds.length lastIds.length < length then best
      else if best < length ∧ newIds.take length = lastIds.take length then length
      else best) (fun best length => by grind) cuts 0
  exact ⟨hmem, fun c hc => hmax c hc.1 hc.2⟩

lemma longestCut_spec (newIds lastIds : List Token) :
    longestCut cuts newIds lastIds = 0 ∨
      IsSharedCut cuts newIds lastIds (longestCut cuts newIds lastIds) :=
  (longestCut_best cuts newIds lastIds).1

/-! ## The updates of the cuts -/

variable {cuts : List Nat} {previous : Option (List Token)} {ids : List Token}

/-- **Where a cut of `noteCut` comes from**: it is the stop just recorded, or it was there before
and the previous pin agrees with the new ids up to it. -/
theorem mem_noteCut {stop : Option Nat} (h : c ∈ noteCut cuts previous ids stop) :
    (c ∈ cuts ∧ ∀ prev, previous = some prev → c ≤ ids.length ∧ ids.take c = prev.take c) ∨
      (c = stop.getD ids.length ∧ 0 < c ∧ c ≤ ids.length) := by
  have hkept : ∀ {x}, (x ∈ cuts.filter fun length => previous.all fun prev =>
      decide (length ≤ ids.length) && ids.take length == prev.take length) →
      x ∈ cuts ∧ ∀ prev, previous = some prev → x ≤ ids.length ∧ ids.take x = prev.take x := by
    grind
  simp only [noteCut] at h
  split at h
  · exact .inl (hkept h)
  rcases mem_append.1 (mem_of_mem_evictRecent h) with h | h
  · exact .inl (hkept (mem_filter.1 h).1)
  · grind

lemma stop_mem_noteCut (cuts : List Nat) (previous : Option (List Token)) (ids : List Token)
    (stop : Option Nat) (h0 : 0 < stop.getD ids.length) (h1 : stop.getD ids.length ≤ ids.length) :
    stop.getD ids.length ∈ noteCut cuts previous ids stop := by
  grind [noteCut, mem_evictRecent_concat]

/-- **Where an aborted request is pinned**: nowhere, at a recorded cut, or at the end of its last
chunk, and within what its row holds. -/
theorem abortedPrefixLen_spec (cuts : List Nat) (limit : Nat) (extendEnd : Option Nat) :
    abortedPrefixLen cuts limit extendEnd = 0 ∨
      (0 < abortedPrefixLen cuts limit extendEnd ∧ abortedPrefixLen cuts limit extendEnd ≤ limit ∧
        (abortedPrefixLen cuts limit extendEnd ∈ cuts ∨
          extendEnd = some (abortedPrefixLen cuts limit extendEnd))) := by
  obtain ⟨-, hbest, -⟩ := foldl_best (P := fun length => 0 < length ∧ length ≤ limit)
    (f := fun best length => if 0 < length ∧ length ≤ limit ∧ best < length then length else best)
    (fun best length => by split <;> omega) cuts 0
  cases extendEnd with
  | none => exact hbest.imp_right fun h => ⟨h.2.1, h.2.2, .inl h.1⟩
  | some stop =>
    simp only [abortedPrefixLen]
    split
    · grind
    · exact hbest.imp_right fun h => ⟨h.2.1, h.2.2, .inl h.1⟩

/-- **Where a cut of `abortedCuts` comes from.** -/
theorem mem_abortedCuts {pinLen : Nat} (h : c ∈ abortedCuts cuts previous ids pinLen) :
    c = pinLen ∨ (c ∈ cuts ∧ 0 < c ∧ c ≤ pinLen ∧
      ∀ prev, previous = some prev → ids.take c = prev.take c) := by
  have hkept : ∀ {x}, x ∈ cuts.filter (fun length =>
      decide (0 < length) && decide (length ≤ pinLen) &&
        previous.all fun prev => ids.take length == prev.take length) →
      x ∈ cuts ∧ 0 < x ∧ x ≤ pinLen ∧ ∀ prev, previous = some prev → ids.take x = prev.take x := by
    grind
  have hmem := mem_of_mem_evictRecent h
  split at hmem
  · exact .inr (hkept hmem)
  rcases mem_append.1 hmem with h | h
  · exact .inr (hkept h)
  · exact .inl (mem_singleton.1 h)

end Sglang.Sticky
