import Sglang.Beam.Search

/-!
# The search is textbook beam search

Both halves are compared with `Textbook.after`: the launch half is `numGenerated` steps on, as long
as the search has not ended there, and the deferred half `numCommitted` steps.  A staged selection
is the one the textbook makes at its place.  In the last step the code completes the best
`beamWidth` extensions and the textbook all that the walk sees; among the best `beamWidth` of
everything completed this makes no difference.

* `Frontier.forward`: at a launch the slots of each row hold the entries of its beam.
* `Follows.next`: launches and commits keep to the textbook search.
* `finalize_eq_textbook`: in every run a search that has finished has the textbook's result, and one
  that has not has steps left to commit.
-/

namespace Sglang.Beam
open Lib List Search CompletedBeam Textbook Hyp

variable {K : Type} [Field K] [LinearOrder K]

/-! ## The best of a sorted list -/

section
variable {α : Type} {r : α → α → Prop} [DecidableRel r]

lemma take_orderedInsert (a : α) : ∀ (l : List α) (n : ℕ),
    (l.orderedInsert r a).take n = ((l.take n).orderedInsert r a).take n
  | _, 0 => by simp
  | [], n + 1 => by simp
  | b :: l, n + 1 => by
    rw [take_succ_cons, orderedInsert_cons, orderedInsert_cons]
    split
    · cases n <;> simp [take_take]
    · rw [take_succ_cons, take_succ_cons, take_orderedInsert a l n]

/-- The best `n` of a union need of each part its best `n` only. -/
lemma take_insertionSort_append {l m : List α} {n : ℕ}
    (h : (l.insertionSort r).take n = (m.insertionSort r).take n) (c : List α) :
    ((c ++ l).insertionSort r).take n = ((c ++ m).insertionSort r).take n := by
  induction c with
  | nil => exact h
  | cons a c ih =>
    grind [take_orderedInsert]

end

/-! ## The textbook -/

namespace Textbook
variable {cfg : Config K} {t : Textbook K} {n : ℕ}

lemma step_of_ended (h : t.ended = true) : t.step cfg = t := if_pos h

/-- Once it has ended, nothing changes. -/
lemma after_of_ended (h : (after cfg n).ended = true) (d : ℕ) :
    after cfg (n + d) = after cfg n := by
  induction d with
  | zero => rfl
  | succ d ih => rw [Nat.add_succ, after, ih, step_of_ended h]

/-- A search that goes on after `n` steps. -/
structure Going (cfg : Config K) (n : ℕ) (t : Textbook K) : Prop where
  ended : t.ended = false
  steps : t.steps = n
  length : ∀ b ∈ t.beams, b.tokens.length = n
  lt : n < cfg.maxNewTokens

/-- What the walk of the next step finds. -/
def walked (cfg : Config K) (t : Textbook K) : List (Cand K) × List (Cand K) :=
  walk cfg.stop cfg.beamWidth (t.best cfg (2 * cfg.beamWidth))

/-- One step of the textbook search: it ends, or goes on with the best extensions. -/
lemma Going.step_eq (h : Going cfg n t) : t.step cfg =
    if (t.walked cfg).1.length < cfg.beamWidth ∨ cfg.maxNewTokens ≤ n + 1 then
      ⟨[], t.done ++ (t.walked cfg).2.map t.extend ++ (t.walked cfg).1.map t.extend, n + 1, true⟩
    else
      ⟨(t.walked cfg).1.map t.extend, t.done ++ (t.walked cfg).2.map t.extend, n + 1, false⟩ := by
  rw [step, if_neg (by simp [h.ended]), h.steps]
  rfl

omit [LinearOrder K] in
lemma Going.length_extend (h : Going cfg n t) {c : Cand K} (hc : c ∈ t.exts cfg) :
    (t.extend c).tokens.length = n + 1 := by
  have hlt : c.parent < t.beams.length := by simpa using parent_lt_of_mem_extensions hc
  have := h.length t.beams[c.parent] (getElem_mem hlt)
  simpa [extend, hlt] using this

lemma mem_exts_of_mem_best {c : Cand K} (h : c ∈ t.best cfg n) : c ∈ t.exts cfg :=
  (perm_insertionSort _ _).mem_iff.1 (mem_of_mem_take h)

/-- A search that has not ended after `n` steps has beams of `n` tokens. -/
lemma going_after (hm : 0 < cfg.maxNewTokens) : ∀ n, (after cfg n).ended = false →
    Going cfg n (after cfg n)
  | 0, _ => ⟨rfl, rfl, by simp [after], hm⟩
  | n + 1, h => by
    have h0 : (after cfg n).ended = false := by
      by_contra hne
      rw [after, step_of_ended (by simpa using hne)] at h
      exact hne h
    have ih := going_after hm n h0
    rw [after, ih.step_eq] at h ⊢
    split at h
    · cases h
    rename_i hno
    rw [if_neg hno]
    rw [not_or, not_le] at hno
    refine ⟨rfl, rfl, fun b hb => ?_, hno.2⟩
    obtain ⟨c, hc, rfl⟩ := mem_map.1 hb
    exact ih.length_extend (mem_exts_of_mem_best (mem_of_mem_walk (.inr hc)))

variable [IsStrictOrderedRing K]

/-- Candidates of one step with different scores, best first, are sorted as sequences as well. -/
lemma Going.insertionSort_extend (h : Going cfg n t)
    (hd : ((t.exts cfg).map Cand.score).Nodup) {l : List (Hyp K)} {m : ℕ}
    (hp : l.Perm ((t.best cfg m).map t.extend)) :
    l.insertionSort ge = (t.best cfg m).map t.extend := by
  have hvalue : ∀ a ∈ t.best cfg m, ∀ b ∈ t.best cfg m,
      ((t.extend a).value ≤ (t.extend b).value ↔ a.score ≤ b.score) := fun a ha b hb => by
    have hn : (0 : K) < (n + 1 : ℕ) := by exact_mod_cast Nat.succ_pos n
    rw [value, value, h.length_extend (mem_exts_of_mem_best ha),
      h.length_extend (mem_exts_of_mem_best hb), div_le_div_iff_of_pos_right hn]
    rfl
  have hsort : (t.best cfg m).Pairwise Cand.ge :=
    (pairwise_insertionSort _ _).sublist (take_sublist _ _)
  refine List.Perm.eq_of_pairwise (fun a b ha hb hab hba => ?_) (pairwise_insertionSort _ _) ?_
    ((perm_insertionSort _ _).trans hp)
  · rw [((perm_insertionSort _ _).trans hp).mem_iff] at ha
    obtain ⟨x, hx, rfl⟩ := mem_map.1 ha
    obtain ⟨y, hy, rfl⟩ := mem_map.1 hb
    have hxy := le_antisymm ((hvalue x hx y hy).1 hba) ((hvalue y hy x hx).1 hab)
    rw [inj_on_of_nodup_map hd (mem_exts_of_mem_best hx) (mem_exts_of_mem_best hy) hxy]
  · exact pairwise_map.2 (hsort.imp_of_mem fun hx hy h => (hvalue _ hy _ hx).2 h)

/-- **The last step**: the walk and the best extensions give the same best sequences. -/
theorem Going.take_last (h : Going cfg n t) (hd : ((t.exts cfg).map Cand.score).Nodup)
    (stop : ℕ → Bool) (k : ℕ) :
    ((t.done ++ (t.best cfg k).map t.extend).insertionSort ge).take k =
      ((t.done ++ ((walk stop k (t.best cfg (2 * k))).2.map t.extend ++
        (walk stop k (t.best cfg (2 * k))).1.map t.extend)).insertionSort ge).take k := by
  obtain ⟨j, hp, hj⟩ := walk_perm stop k (t.best cfg (2 * k))
  have hbest : ∀ i m, (t.best cfg m).take i = t.best cfg (min i m) := fun i m => take_take
  have hp' := hp.map t.extend
  rw [map_append, hbest] at hp'
  refine take_insertionSort_append ?_ _
  rw [h.insertionSort_extend hd .rfl, h.insertionSort_extend hd hp', ← hbest, ← map_take,
    ← map_take, take_take, hbest, hbest, min_self]
  rcases hj with hj | hj
  · rw [min_eq_left hj, min_eq_left (by omega)]
  · rw [← hbest (min k j), ← take_take, take_of_length_le hj, hbest, min_eq_left (by omega)]

end Textbook

/-! ## The launch half -/

/-- A row attends to the entries of its beam up to the last token, which it is fed next. -/
def RowOk (kv : ℕ → List ℕ) (window : List ℕ) (token : ℕ) (tokens : List ℕ) : Prop :=
  ∃ init, tokens = init ++ [token] ∧ window.map kv = prefixes init

/-- The frontier is that of the textbook. -/
structure Frontier (s : Search K) (t : Textbook K) : Prop where
  cums : s.frontierCumLogprobs = t.beams.map cum
  width : s.numGenerated ≠ 0 → s.windows.length = t.beams.length
  rows : s.numGenerated ≠ 0 → ∀ (r : ℕ) (b : Hyp K), t.beams[r]? = some b →
    ∃ window token, s.windows[r]? = some window ∧ s.relay[r]? = some token ∧
      RowOk s.kv window token b.tokens

/-- A fresh slot holds the entry that was written to it. -/
lemma lookup_zip : ∀ {fresh : List ℕ} {entries : List (List ℕ)} {r slot : ℕ} {e : List ℕ},
    fresh.Nodup → fresh[r]? = some slot → entries[r]? = some e →
      (fresh.zip entries).lookup slot = some e
  | [], _, _, _, _, _, h, _ => by simp at h
  | _ :: _, [], _, _, _, _, _, h => by simp at h
  | f :: fresh, e :: entries, 0, slot, e', _, h, h' => by simp_all
  | f :: fresh, e :: entries, r + 1, slot, e', hn, h, h' => by
    have hmem : slot ∈ fresh := mem_of_getElem? h
    have hne : slot ≠ f := fun he => (nodup_cons.1 hn).1 (he ▸ hmem)
    have := lookup_zip (nodup_cons.1 hn).2 h h'
    rwa [zip_cons_cons, lookup_cons, beq_eq_false_iff_ne.2 hne]

lemma lookup_zip_of_not_mem {slot : ℕ} : ∀ {fresh : List ℕ} {entries : List (List ℕ)},
    slot ∉ fresh → (fresh.zip entries).lookup slot = none
  | [], _, _ => rfl
  | _ :: _, [], _ => rfl
  | f :: fresh, e :: entries, h => by
    rw [mem_cons, not_or] at h
    rw [zip_cons_cons, lookup_cons, beq_eq_false_iff_ne.2 h.1]
    exact lookup_zip_of_not_mem h.2

lemma prefixes_concat (init : List ℕ) (x : ℕ) :
    prefixes (init ++ [x]) = prefixes init ++ [init ++ [x]] := by
  rw [prefixes, prefixes, length_append, length_singleton, range_succ, map_append]
  refine congrArg₂ _ (map_congr_left fun j hj => ?_)
    (by rw [map_singleton, take_of_length_le (by simp)])
  exact take_append_of_le_length (mem_range.1 hj)

lemma getLastD_prefixes (init : List ℕ) : (prefixes init).getLastD [] = init := by
  rcases eq_nil_or_concat init with rfl | ⟨l, x, rfl⟩
  · rfl
  · simp [prefixes_concat]

variable {cfg : Config K} {s : Search K} {t : Textbook K}

omit [Field K] [LinearOrder K] in
/-- **The cache at a launch**: the slots of each row hold the entries of its beam. -/
theorem Frontier.forward (h : Frontier s t) (hg : s.numGenerated ≠ 0) {fresh : List ℕ}
    (hf : s.Fresh fresh) {r : ℕ} {b : Hyp K} (hb : t.beams[r]? = some b) :
    ∃ window, (s.forward fresh).windows[r]? = some window ∧
      window.map (s.forward fresh).kv = prefixes b.tokens := by
  obtain ⟨hlen, hn, hnew⟩ := hf
  obtain ⟨window, token, hw, ht, init, hi, hk⟩ := h.rows hg r b hb
  obtain ⟨slot, hslot⟩ : ∃ slot, fresh[r]? = some slot := by
    grind
  refine ⟨window ++ [slot], by simp [Search.forward, getElem?_zipWith, hw, hslot], ?_⟩
  have hold : window.map (s.forward fresh).kv = prefixes init := by
    rw [← hk]
    refine map_congr_left fun x hx => ?_
    simp [Search.forward, lookup_zip_of_not_mem (hnew window (mem_of_getElem? hw) x hx)]
  have hentry : (s.forward fresh).kv slot = b.tokens := by
    have : (zipWith (fun window t => (window.map s.kv).getLastD [] ++ [t]) s.windows
        s.relay)[r]? = some b.tokens := by
      simp only [getElem?_zipWith, hw, ht, hk, getLastD_prefixes, hi]
    simp only [Search.forward, lookup_zip hn hslot this, Option.getD_some]
  rw [map_append, hold, map_singleton, hentry, hi, prefixes_concat]

/-- The selection that the textbook makes. -/
def selectionOf (cfg : Config K) (t : Textbook K) : Step K :=
  if cfg.maxNewTokens ≤ t.steps + 1 then .final (t.best cfg cfg.beamWidth)
  else .select (splitCandidates (t.best cfg (2 * cfg.beamWidth)) cfg.stop cfg.beamWidth
    (2 * cfg.beamWidth))

lemma length_best_le (cfg : Config K) (t : Textbook K) (n : ℕ) : (t.best cfg n).length ≤ n := by
  simp [best]

/-- A selection on the frontier of the textbook, when the windows are those of its beams. -/
lemma Frontier.select {n : ℕ} (ht : Textbook.Going cfg n t)
    (hcums : s.frontierCumLogprobs = t.beams.map cum) (hn : s.numGenerated = n) (tick : ℕ)
    {tops : List (List (K × ℕ))}
    (htops : tops = t.beams.map fun b => cfg.offers (prefixes b.tokens))
    {remap : Bool} (hrows : ∀ (r : ℕ) (b : Hyp K), t.beams[r]? = some b →
      if remap then ∃ window, s.windows[r]? = some window ∧ window.map s.kv = prefixes b.tokens
      else b.tokens = []) :
    (s.selectGroup cfg tick tops remap).pendingSteps =
        s.pendingSteps ++ [(tick, selectionOf cfg t)] ∧
      ((t.step cfg).ended = false → Frontier (s.selectGroup cfg tick tops remap) (t.step cfg)) := by
  subst hn htops
  have hbest : ∀ m, rankedCandidates s.frontierCumLogprobs
      (t.beams.map fun b => cfg.offers (prefixes b.tokens)) m = t.best cfg m := fun m => by
    rw [hcums]
    rfl
  rw [selectGroup, selectionOf, ht.steps]
  dsimp only
  split
  · rename_i hm
    rw [hbest]
    refine ⟨rfl, fun hend => ?_⟩
    rw [ht.step_eq, if_pos (.inr hm)] at hend
    cases hend
  · rename_i hm
    rw [jointSelect, hbest]
    refine ⟨rfl, fun hend => ?_⟩
    rw [ht.step_eq] at hend ⊢
    split at hend
    · cases hend
    rename_i hno
    rw [if_neg hno]
    rw [not_or, not_lt, walked] at hno
    rw [survivors_eq_walk (length_best_le _ _ _) hno.1]
    have hlen := le_antisymm (length_walk_le cfg.stop _ _) hno.1
    refine ⟨?_, fun _ => ?_, fun _ r b hb => ?_⟩
    · simp [extend, walked]
    · cases remap <;> simp [hlen, walked]
    · obtain ⟨c, hc, rfl⟩ : ∃ c, (t.walked cfg).1[r]? = some c ∧ t.extend c = b := by
        simpa [getElem?_map] using hb
      rw [walked] at hc
      have hmem := mem_exts_of_mem_best
        (mem_of_mem_walk (.inr (mem_of_getElem? hc)))
      have hlt : c.parent < t.beams.length := by simpa using parent_lt_of_mem_extensions hmem
      have hpar := hrows _ _ (getElem?_eq_getElem hlt)
      cases remap with
      | true =>
        obtain ⟨window, hw, hk⟩ := hpar
        refine ⟨window, c.token, by simp [hc, hw], by simp [hc], _, rfl, ?_⟩
        simpa [hlt] using hk
      | false =>
        have hr : r < cfg.beamWidth := by
          grind
        refine ⟨[], c.token, by simp [hr], by simp [hc], _, rfl, ?_⟩
        have hpar : t.beams[c.parent].tokens = [] := hpar
        simp [hlt, hpar, prefixes]

/-! ## The deferred half -/

def CompletedBeam.hyp (b : CompletedBeam K) : Hyp K := ⟨b.leaf.reverse, b.cumLogprob⟩

/-- The history is that of the textbook. -/
structure Committed (s : Search K) (t : Textbook K) : Prop where
  leaves : s.leaves = t.beams.map fun b => b.tokens.reverse
  completed : s.completed.map CompletedBeam.hyp = t.done
  numTokens : ∀ b ∈ s.completed, b.numTokens = b.leaf.length

omit [LinearOrder K] in
/-- A completed candidate of the code is the extension of the textbook search. -/
lemma Committed.hyp_complete (h : Committed s t) (f : Cand K → Option ℕ) (c : Cand K) :
    (s.complete f c).hyp = t.extend c := by
  simp [complete, leafOf, hyp, extend, h.leaves]
  grind

omit [LinearOrder K] in
lemma Committed.map_complete (h : Committed s t) (f : Cand K → Option ℕ) (l : List (Cand K)) :
    (l.map (s.complete f)).map hyp = l.map t.extend := by
  grind [map_congr_left, h.hyp_complete]

/-- Sequences with their scores, best first. -/
lemma Committed.map_finalize (hs : ∀ b ∈ s.completed, b.numTokens = b.leaf.length) :
    (s.finalize cfg).map (fun r => (r.tokens, r.cumLogprob, r.beamScore)) =
      (((s.completed.map hyp).insertionSort Hyp.ge).take cfg.beamWidth).map
        fun h => (h.tokens, h.cum, h.value) := by
  rw [finalize, map_take, map_take,
    map_insertionSort BeamResult.ge (fun a b : List ℕ × K × K => b.2.2 ≤ a.2.2) _ _
      (fun _ _ _ _ => Iff.rfl),
    map_insertionSort ge (fun a b : List ℕ × K × K => b.2.2 ≤ a.2.2) _ _
      (fun _ _ _ _ => Iff.rfl), map_map, map_map]
  congr 2
  refine map_congr_left fun b hb => ?_
  simp [hyp, value, hs b hb]

/-- Committing a staged step is one step of the textbook search, as far as results go. -/
lemma Committed.commitStep [IsStrictOrderedRing K] {n : ℕ} (h : Committed s t)
    (ht : Textbook.Going cfg n t) (hn : s.numCommitted = n)
    (hd : ((t.exts cfg).map Cand.score).Nodup) :
    let s' := s.commitStep cfg (selectionOf cfg t)
    (s'.finished = (t.step cfg).ended ∧ ∀ b ∈ s'.completed, b.numTokens = b.leaf.length) ∧
    ((t.step cfg).ended = false → Committed s' (t.step cfg)) ∧
    ((s'.completed.map hyp).insertionSort Hyp.ge).take cfg.beamWidth =
      ((t.step cfg).done.insertionSort Hyp.ge).take cfg.beamWidth := by
  have hlen : ∀ (f : Cand K → Option ℕ) (c : Cand K), c ∈ t.exts cfg →
      (s.complete f c).numTokens = (s.complete f c).leaf.length := fun f c hc => by
    have := congrArg (·.tokens.length) (h.hyp_complete f c)
    simp only [hyp, length_reverse, ht.length_extend hc] at this
    rw [this]
    simp [complete, hn]
  have hmem : ∀ {b m} {l : List (Cand K)} {f}, b ∈ l.map (s.complete f) →
      (∀ c ∈ l, c ∈ t.best cfg m) → b.numTokens = b.leaf.length := fun hb hl => by
    obtain ⟨c, hc, rfl⟩ := mem_map.1 hb
    exact hlen _ c (mem_exts_of_mem_best (hl c hc))
  rw [selectionOf, ht.steps, ht.step_eq]
  by_cases hm : cfg.maxNewTokens ≤ n + 1
  · rw [if_pos hm, if_pos (.inr hm)]
    refine ⟨⟨rfl, fun b hb => ?_⟩, nofun, ?_⟩
    · exact (mem_append.1 hb).elim (h.numTokens b) fun hb => hmem hb fun _ hc => hc
    · rw [Search.commitStep, map_append, h.completed, h.map_complete, append_assoc]
      exact ht.take_last hd cfg.stop _
  · rw [if_neg hm]
    obtain ⟨hsurv, hfin, hnum⟩ := splitCandidates_eq_walk (k := cfg.beamWidth) cfg.stop
      (length_best_le cfg t (2 * cfg.beamWidth))
    rw [← walked] at hsurv hfin hnum
    rw [hnum] at hsurv
    simp only [Search.commitStep, hsurv, hfin, hnum, hm, or_false]
    have hbest : ∀ c, c ∈ (t.walked cfg).2 ∨ c ∈ (t.walked cfg).1 →
        c ∈ t.best cfg (2 * cfg.beamWidth) := fun c hc => mem_of_mem_walk hc
    by_cases hs : (t.walked cfg).1.length < cfg.beamWidth
    · simp only [hs, if_true, decide_true]
      refine ⟨⟨trivial, fun b hb => ?_⟩, nofun, ?_⟩
      · rw [mem_append, mem_append] at hb
        rcases hb with (hb | hb) | hb
        · exact h.numTokens b hb
        · exact hmem hb fun c hc => hbest c (.inl hc)
        · exact hmem hb fun c hc => hbest c (.inr hc)
      · rw [map_append, map_append, h.completed, h.map_complete, h.map_complete]
    · simp only [hs, if_false, decide_false, append_nil]
      have hcomp : ∀ b ∈ s.completed ++ (t.walked cfg).2.map (s.complete fun c => some c.token),
          b.numTokens = b.leaf.length := fun b hb =>
        (mem_append.1 hb).elim (h.numTokens b) fun hb => hmem hb fun c hc => hbest c (.inl hc)
      have hdone := (map_append).trans
        (congrArg₂ (· ++ ·) h.completed (h.map_complete (fun c => some c.token) (t.walked cfg).2))
      refine ⟨⟨trivial, hcomp⟩, fun _ => ⟨?_, hdone, hcomp⟩, congrArg _ (congrArg _ hdone)⟩
      rw [map_map]
      refine map_congr_left fun c _ => ?_
      have := congrArg (·.tokens.reverse) (h.hyp_complete (fun _ => none) c)
      simpa [hyp, complete] using this

/-! ## Runs -/

/-- Both halves follow the textbook until the search has ended. -/
structure Follows (cfg : Config K) (s : Search K) : Prop where
  going : s.finished = false → (Textbook.after cfg s.numCommitted).ended = false
  committed : s.finished = false → Committed s (Textbook.after cfg s.numCommitted)
  generated : s.finished = false → s.numGenerated = s.numCommitted + s.pendingSteps.length
  pending : s.finished = false → ∀ (j : ℕ) (p : ℕ × Step K), s.pendingSteps[j]? = some p →
    (Textbook.after cfg (s.numCommitted + j)).ended = false →
      p.2 = selectionOf cfg (Textbook.after cfg (s.numCommitted + j))
  frontier : s.finished = false → (Textbook.after cfg s.numGenerated).ended = false →
    Frontier s (Textbook.after cfg s.numGenerated)
  result : s.finished = true →
    (s.finalize cfg).map (fun r => (r.tokens, r.cumLogprob, r.beamScore)) =
      (Textbook.result cfg).map fun h => (h.tokens, h.cum, h.value)

lemma follows_start : Follows cfg start where
  going _ := rfl
  committed _ := ⟨rfl, rfl, by simp [start]⟩
  generated _ := rfl
  pending _ j p h := by simp [start] at h
  frontier _ _ := ⟨rfl, fun h => absurd rfl h, fun h => absurd rfl h⟩
  result h := by cases h

/-- A launch leaves the deferred half as it is, but for the step it stages. -/
lemma selectGroup_frame (cfg : Config K) (s : Search K) (tick : ℕ)
    (tops : List (List (K × ℕ))) (remap : Bool) :
    let s' := s.selectGroup cfg tick tops remap
    (s'.leaves = s.leaves ∧ s'.completed = s.completed ∧ s'.numCommitted = s.numCommitted ∧
      s'.finished = s.finished ∧ s'.numGenerated = s.numGenerated + 1) ∧
      ∃ step, s'.pendingSteps = s.pendingSteps ++ [(tick, step)] := by
  simp only [selectGroup]
  split <;> exact ⟨⟨rfl, rfl, rfl, rfl, rfl⟩, _, rfl⟩

/-- A commit leaves the launch half as it is. -/
lemma commitStep_launch (cfg : Config K) (s : Search K) (step : Step K) :
    (s.commitStep cfg step).numCommitted = s.numCommitted + 1 ∧
      (s.commitStep cfg step).numGenerated = s.numGenerated ∧
      ∀ {steps}, Frontier s (Textbook.after cfg s.numGenerated) →
        Frontier { s.commitStep cfg step with pendingSteps := steps }
          (Textbook.after cfg (s.commitStep cfg step).numGenerated) := by
  cases step <;> exact ⟨rfl, rfl, fun h => ⟨h.cums, h.width, h.rows⟩⟩

/-- A launch: a step is staged, and the frontier moves on. -/
lemma Follows.launch (h : Follows cfg s) (hf : s.finished = false) {s' : Search K} {tick : ℕ}
    (hcom : s'.leaves = s.leaves ∧ s'.completed = s.completed ∧
      s'.numCommitted = s.numCommitted ∧ s'.finished = s.finished ∧
      s'.numGenerated = s.numGenerated + 1)
    (hpend : ∃ step, s'.pendingSteps = s.pendingSteps ++ [(tick, step)])
    (hstep : (Textbook.after cfg s.numGenerated).ended = false → s'.pendingSteps =
        s.pendingSteps ++ [(tick, selectionOf cfg (Textbook.after cfg s.numGenerated))] ∧
      (((Textbook.after cfg s.numGenerated).step cfg).ended = false →
        Frontier s' ((Textbook.after cfg s.numGenerated).step cfg))) : Follows cfg s' := by
  obtain ⟨hl, hco, hn, hf', hg⟩ := hcom
  obtain ⟨step, hpend⟩ := hpend
  have hc := h.committed hf
  have hgen := h.generated hf
  refine ⟨fun _ => hn ▸ h.going hf, fun _ => ?_, fun _ => ?_, fun _ j p hp hgo => ?_,
    fun _ hgo => ?_, fun hfin => absurd (hf'.symm.trans hfin) (by simp [hf])⟩
  · rw [hn]
    exact ⟨hl.trans hc.leaves, hco ▸ hc.completed, hco ▸ hc.numTokens⟩
  · grind
  · rw [hn] at hgo ⊢
    rw [hpend] at hp
    by_cases hj : j < s.pendingSteps.length
    · exact h.pending hf j p (by rwa [getElem?_append_left hj] at hp) hgo
    rw [getElem?_append_right (by omega)] at hp
    have hj0 : j - s.pendingSteps.length = 0 := by
      grind
    have hjg : s.numCommitted + j = s.numGenerated := by omega
    rw [hj0] at hp
    cases hp
    rw [hjg] at hgo ⊢
    simpa [hpend] using (hstep hgo).1
  · grind [Textbook.after, Textbook.step_of_ended]

variable [IsStrictOrderedRing K] (hm : 0 < cfg.maxNewTokens)
  (hd : ∀ n, (((Textbook.after cfg n).exts cfg).map Cand.score).Nodup)

include hm hd

/-- The same for all the steps that a commit pops. -/
lemma Follows.commitSteps (upToTick : ℕ) : ∀ {steps} {s : Search K},
    s.finished = false → Follows cfg { s with pendingSteps := steps } →
      Follows cfg (commitSteps cfg upToTick s steps)
  | [], s, _, h => h
  | (tick, step) :: steps, s, hf, h => by
    rw [Search.commitSteps]
    split
    · exact h
    obtain rfl : step = selectionOf cfg (Textbook.after cfg s.numCommitted) :=
      h.pending hf 0 _ rfl (h.going hf)
    have hg := Textbook.going_after hm _ (h.going hf)
    have hc : Committed s _ := ⟨(h.committed hf).leaves, (h.committed hf).completed,
      (h.committed hf).numTokens⟩
    obtain ⟨⟨hfin, hnum⟩, hcom, hres⟩ := hc.commitStep hg rfl (hd _)
    obtain ⟨hn, hgen, hfront⟩ := commitStep_launch cfg s
      (selectionOf cfg (Textbook.after cfg s.numCommitted))
    split
    · rename_i hend
      refine ⟨fun hf => ?_, fun hf => ?_, fun hf => ?_, fun hf => ?_, fun hf => ?_, fun _ => ?_⟩
      iterate 5 exact absurd hend (by simpa using hf)
      obtain ⟨d, hd⟩ := Nat.exists_eq_add_of_le (Nat.succ_le_of_lt hg.lt)
      refine (Committed.map_finalize hnum).trans ?_
      rw [hres, Textbook.result, hd, Textbook.after_of_ended (n := s.numCommitted + 1)
        (hfin.symm.trans hend)]
      rfl
    · rename_i hgo
      rw [Bool.not_eq_true] at hgo
      refine Follows.commitSteps upToTick hgo ⟨fun _ => ?_, fun _ => ?_, fun _ => ?_,
        fun _ j p hp => ?_, fun _ => ?_, fun hf => absurd hf (by simp [hgo])⟩
      · rw [hn]
        exact hfin.symm.trans hgo
      · have := hcom (hfin.symm.trans hgo)
        rw [hn]
        exact ⟨this.leaves, this.completed, this.numTokens⟩
      · have := h.generated hf
        simp only [hn, hgen, length_cons] at this ⊢
        omega
      · have := h.pending hf (j + 1) p (by simpa using hp)
        rw [hn, add_assoc, add_comm 1]
        exact this
      · intro hne
        have := h.frontier hf (hgen ▸ hne)
        exact hfront ⟨this.cums, this.width, this.rows⟩

/-- Launches and commits, in any order and with any lag, keep to the textbook search. -/
lemma Follows.next (h : Follows cfg s) {op : Search.Op} {s' : Search K}
    (hs : s.next cfg op = some s') : Follows cfg s' := by
  cases op with
  | prefill tick =>
    obtain ⟨hg, hs⟩ := Option.ite_none_left_eq_some.1 hs
    simp only [not_or, Bool.not_eq_true, not_not] at hg
    cases hs
    obtain ⟨hframe, hpend⟩ := selectGroup_frame cfg s tick [cfg.offers []] false
    refine h.launch hg.1 hframe hpend fun hgo => ?_
    have ht := Textbook.going_after hm _ hgo
    refine Frontier.select ht (h.frontier hg.1 hgo).cums rfl tick ?_ fun r b hb => ?_
    · rw [hg.2]
      rfl
    · have := ht.length b (mem_of_getElem? hb)
      exact length_eq_zero_iff.1 (this.trans hg.2)
  | decode tick fresh =>
    obtain ⟨hg, hs⟩ := Option.ite_none_left_eq_some.1 hs
    simp only [not_or, Bool.not_eq_true, not_not] at hg
    cases hs
    obtain ⟨hframe, hpend⟩ := selectGroup_frame cfg (s.forward fresh) tick
      ((s.forward fresh).windows.map fun w => cfg.offers (w.map (s.forward fresh).kv)) true
    refine h.launch hg.1 hframe hpend fun hgo => ?_
    have hfr := h.frontier hg.1 hgo
    have hrow := fun r b => hfr.forward hg.2.1 hg.2.2 (r := r) (b := b)
    refine Frontier.select (s := s.forward fresh) (Textbook.going_after hm _ hgo) hfr.cums rfl tick
      (ext_getElem? fun r => ?_) hrow
    rw [getElem?_map, getElem?_map]
    cases hb : (Textbook.after cfg s.numGenerated).beams[r]? with
    | some b =>
      obtain ⟨window, hw, hk⟩ := hrow r b hb
      simp [hw, hk]
    | none =>
      have := List.getElem?_eq_none_iff.1 hb
      have hlen : (s.forward fresh).windows.length ≤ r := by
        simp [forward, hg.2.2.1, hfr.width hg.2.1, this]
      simp [hlen]
  | commit upToTick =>
    cases hs
    rw [commitPending]
    split
    · rename_i hf
      have hv : ¬ s.finished = false := by simp [hf]
      exact ⟨fun h => absurd h hv, fun h => absurd h hv, fun h => absurd h hv, fun h => absurd h hv,
        fun h => absurd h hv, h.result⟩
    · rename_i hf
      exact Follows.commitSteps hm hd upToTick (by simpa using hf) h

omit hm hd

/-- Two beams and three steps.  In the second step the continuations of the second beam are better
than those of the first, so that the two beams change places, and the best one is a stop. -/
def swapConfig : Config ℚ where
  beamWidth := 2
  maxNewTokens := 3
  stop t := t = 9
  offers entries := match entries.getLast? with
    | none => [(-1, 5), (-2, 6), (-4, 9), (-8, 7)]
    | some [5] => [(-5, 5), (-6, 6), (-7, 9), (-9, 7)]
    | some _ => [(-1, 9), (-9 / 4, 5), (-10, 6), (-12, 7)]

lemma nodup_swapConfig :
    ∀ n, (((Textbook.after swapConfig n).exts swapConfig).map Cand.score).Nodup
  | 0 => by decide +kernel
  | 1 => by decide +kernel
  | 2 => by decide +kernel
  | n + 3 => by
    rw [add_comm, Textbook.after_of_ended (by decide +kernel)]
    decide +kernel

end Sglang.Beam
