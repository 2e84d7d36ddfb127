import Sglang.Beam.Selection

/-!
# The search

`BeamGroup` and `BeamCoordinator` as a search: selections on the launch half, the history of the
beams on the deferred half, and the KV entries that the rows attend to.  A `BeamNode` is a token and
its parent and never changes, so that a leaf is the list of its tokens, last one first.

An entry of the cache is the sequence it was computed for.  A row is scored by the entries its slots
hold; the prompt is the same for all and left out.  Slots are given back elsewhere, here a fresh one
is one that no row names.
-/

namespace Sglang.Beam
open List

variable {K : Type} [Field K] [LinearOrder K]

structure Config (K : Type) where
  beamWidth : ℕ
  maxNewTokens : ℕ
  stop : ℕ → Bool
  /-- the best `2 * beamWidth` tokens of a row, given the entries it attends to -/
  offers : List (List ℕ) → List (K × ℕ)

structure CompletedBeam (K : Type) where
  leaf : List ℕ
  cumLogprob : K
  numTokens : ℕ
  matchedToken : Option ℕ

structure BeamResult (K : Type) where
  tokens : List ℕ
  cumLogprob : K
  beamScore : K
  matchedToken : Option ℕ

def BeamResult.ge (a b : BeamResult K) : Prop := b.beamScore ≤ a.beamScore

instance : DecidableRel (@BeamResult.ge K _) := fun a b =>
  inferInstanceAs (Decidable (b.beamScore ≤ a.beamScore))

/-- A staged selection. -/
inductive Step (K : Type)
  | select (sel : SelectResult K)
  | final (cands : List (Cand K))

structure Search (K : Type) where
  frontierCumLogprobs : List K
  leaves : List (List ℕ)
  numGenerated : ℕ
  numCommitted : ℕ
  completed : List (CompletedBeam K)
  finished : Bool
  pendingSteps : List (ℕ × Step K)
  windows : List (List ℕ)
  /-- the token each row is fed next -/
  relay : List ℕ
  kv : ℕ → List ℕ

def Search.start : Search K where
  frontierCumLogprobs := [0]
  leaves := [[]]
  numGenerated := 0
  numCommitted := 0
  completed := []
  finished := false
  pendingSteps := []
  windows := []
  relay := []
  kv := fun _ => []

namespace Search
variable (cfg : Config K) (s : Search K)

/-! ## Launching -/

/-- `_select_group`; the rows are given their parents' windows if `remap` is set. -/
def selectGroup (tick : ℕ) (tops : List (List (K × ℕ))) (remap : Bool) : Search K :=
  let k := cfg.beamWidth
  if cfg.maxNewTokens ≤ s.numGenerated + 1 then
    let cands := rankedCandidates s.frontierCumLogprobs tops k
    { s with
      numGenerated := s.numGenerated + 1
      pendingSteps := s.pendingSteps ++ [(tick, .final cands)]
      relay := cands.map Cand.token }
  else
    let sel := jointSelect s.frontierCumLogprobs tops cfg.stop k (2 * k)
    { s with
      frontierCumLogprobs := sel.survivors.map Cand.score
      numGenerated := s.numGenerated + 1
      pendingSteps := s.pendingSteps ++ [(tick, .select sel)]
      windows := if remap then sel.survivors.map fun c => s.windows.getD c.parent []
        else List.replicate k []
      relay := sel.survivors.map Cand.token }

/-- `select_leader_prefill`: the frontier is the prompt, and the member rows are spawned. -/
def prefill (tick : ℕ) : Search K := s.selectGroup cfg tick [cfg.offers []] false

/-- The forward of a decode step: each row is fed its token, and the entry goes to a fresh slot. -/
def forward (fresh : List ℕ) : Search K :=
  let entries := List.zipWith (fun window t => (window.map s.kv).getLastD [] ++ [t]) s.windows
    s.relay
  { s with
    windows := List.zipWith (fun window slot => window ++ [slot]) s.windows fresh
    kv := fun slot => ((fresh.zip entries).lookup slot).getD (s.kv slot) }

/-- `select_and_relay_decode` -/
def decode (tick : ℕ) (fresh : List ℕ) : Search K :=
  let s := s.forward fresh
  s.selectGroup cfg tick (s.windows.map fun window => cfg.offers (window.map s.kv)) true

/-! ## Committing -/

/-- A candidate as a new leaf. -/
def leafOf (c : Cand K) : List ℕ := c.token :: s.leaves.getD c.parent []

def complete (matched : Cand K → Option ℕ) (c : Cand K) : CompletedBeam K :=
  ⟨s.leafOf c, c.score, s.numCommitted + 1, matched c⟩

/-- `_commit_step` and `_commit_final` -/
def commitStep : Step K → Search K
  | .select sel =>
    let survivors := sel.survivors.take sel.numSurvivors
    let done := (sel.finished.take sel.numFinished).map (s.complete fun c => some c.token)
    let short := sel.numSurvivors < cfg.beamWidth
    { s with
      numCommitted := s.numCommitted + 1
      leaves := if short then [] else survivors.map s.leafOf
      completed := s.completed ++ done ++
        if short then survivors.map (s.complete fun _ => none) else []
      finished := short }
  | .final cands =>
    { s with
      numCommitted := s.numCommitted + 1
      leaves := []
      completed := s.completed ++ cands.map (s.complete fun _ => none)
      finished := true }

/-- The loop of `commit_pending`. -/
def commitSteps (upToTick : ℕ) : Search K → List (ℕ × Step K) → Search K
  | s, [] => { s with pendingSteps := [] }
  | s, (tick, step) :: steps =>
    if upToTick < tick then { s with pendingSteps := (tick, step) :: steps }
    else if (s.commitStep cfg step).finished then { s.commitStep cfg step with pendingSteps := [] }
    else commitSteps upToTick (s.commitStep cfg step) steps

/-- `commit_pending` -/
def commitPending (upToTick : ℕ) : Search K :=
  if s.finished then { s with pendingSteps := [] } else commitSteps cfg upToTick s s.pendingSteps

/-- `finalize`; the length penalty is 1. -/
def finalize : List (BeamResult K) :=
  ((s.completed.map fun b =>
    (⟨b.leaf.reverse, b.cumLogprob, b.cumLogprob / b.numTokens, b.matchedToken⟩ :
      BeamResult K)).insertionSort BeamResult.ge).take cfg.beamWidth

/-! ## Steps -/

inductive Op
  | prefill (tick : ℕ)
  | decode (tick : ℕ) (fresh : List ℕ)
  | commit (upToTick : ℕ)

/-- A fresh slot for each row. -/
def Fresh (fresh : List ℕ) : Prop :=
  fresh.length = s.windows.length ∧ fresh.Nodup ∧
    ∀ window ∈ s.windows, ∀ slot ∈ window, slot ∉ fresh

instance (fresh : List ℕ) : Decidable (s.Fresh fresh) := inferInstanceAs (Decidable (_ ∧ _))

def next : Op → Option (Search K)
  | .prefill tick =>
    if s.finished ∨ s.numGenerated ≠ 0 then none else some (s.prefill cfg tick)
  | .decode tick fresh =>
    if s.finished ∨ s.numGenerated = 0 ∨ ¬ s.Fresh fresh then none
    else some (s.decode cfg tick fresh)
  | .commit upToTick => some (s.commitPending cfg upToTick)

end Search

/-! ## Textbook beam search -/

/-- A sequence with its score. -/
structure Hyp (K : Type) where
  tokens : List ℕ
  cum : K

def Hyp.value (h : Hyp K) : K := h.cum / h.tokens.length

def Hyp.ge (a b : Hyp K) : Prop := b.value ≤ a.value

instance : DecidableRel (@Hyp.ge K _ _) := fun a b =>
  inferInstanceAs (Decidable (b.value ≤ a.value))

instance : Std.Total (@Hyp.ge K _ _) := ⟨fun a b => le_total b.value a.value⟩

instance : IsTrans (Hyp K) Hyp.ge := ⟨fun _ _ _ h h' => le_trans h' h⟩

/-- The beginnings of a sequence, which are its entries. -/
def prefixes (tokens : List ℕ) : List (List ℕ) :=
  (List.range tokens.length).map fun j => tokens.take (j + 1)

structure Textbook (K : Type) where
  beams : List (Hyp K)
  done : List (Hyp K)
  steps : ℕ
  ended : Bool

namespace Textbook
variable (cfg : Config K) (t : Textbook K)

/-- All extensions of the beams. -/
def exts : List (Cand K) :=
  extensions (t.beams.map Hyp.cum) (t.beams.map fun b => cfg.offers (prefixes b.tokens))

def best (n : ℕ) : List (Cand K) := ((t.exts cfg).insertionSort Cand.ge).take n

def extend (c : Cand K) : Hyp K := ⟨(t.beams.getD c.parent ⟨[], 0⟩).tokens ++ [c.token], c.score⟩

def step : Textbook K :=
  if t.ended then t
  else
    let (survivors, finished) := walk cfg.stop cfg.beamWidth (t.best cfg (2 * cfg.beamWidth))
    let done := t.done ++ finished.map t.extend
    if survivors.length < cfg.beamWidth ∨ cfg.maxNewTokens ≤ t.steps + 1 then
      ⟨[], done ++ survivors.map t.extend, t.steps + 1, true⟩
    else ⟨survivors.map t.extend, done, t.steps + 1, false⟩

/-- After `n` steps from the prompt. -/
def after : ℕ → Textbook K
  | 0 => ⟨[⟨[], 0⟩], [], 0, false⟩
  | n + 1 => (after n).step cfg

/-- The best completed sequences once the search has ended. -/
def result : List (Hyp K) :=
  ((after cfg cfg.maxNewTokens).done.insertionSort Hyp.ge).take cfg.beamWidth

end Textbook
end Sglang.Beam
