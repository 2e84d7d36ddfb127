import Mathlib.Tactic

/-!
# Runs of a partial step function

A component of a running system is described here by a step function `step : σ → ε → Option σ`:
an event either leads to a next state or is refused, because its guard fails or because the code
raises.  `Run` collects the states that can be reached by a sequence of events, each of which
meets a condition `ok` on the state it is about to act on; taking `ok` to be `fun _ _ => True`
gives the plain notion of a reachable state.

`Run.invariant` is the only induction the safety results need: what holds at the start and is
kept by each admissible step holds in every state of every admissible run.

The last section peels a computation that can raise: a sequence of two that ends well is two
that end well.
-/

namespace Lib
open Option

universe u v

variable {σ : Type u} {ε : Type v}

/-- The states reached from `s₀` by events that all meet `ok` in the state they act on. -/
inductive Run (step : σ → ε → Option σ) (ok : σ → ε → Prop) (s₀ : σ) : σ → Prop
  | start : Run step ok s₀ s₀
  | next {s s' : σ} {e : ε} (h : Run step ok s₀ s) (hok : ok s e) (hs : step s e = some s') :
      Run step ok s₀ s'

/-- The state a list of events leads to, if none of them is refused. -/
def runList (step : σ → ε → Option σ) : σ → List ε → Option σ
  | s, [] => some s
  | s, e :: es => (step s e).bind fun s' => runList step s' es

/-- Every event of the list meets `ok` in the state it acts on. -/
def okList (step : σ → ε → Option σ) (ok : σ → ε → Prop) : σ → List ε → Prop
  | _, [] => True
  | s, e :: es => ok s e ∧ match step s e with
    | none => True
    | some s' => okList step ok s' es

instance okList.decidable (step : σ → ε → Option σ) (ok : σ → ε → Prop)
    [∀ s e, Decidable (ok s e)] : ∀ (es : List ε) (s : σ), Decidable (okList step ok s es)
  | [], _ => isTrue trivial
  | e :: es, s =>
    have : Decidable (match step s e with
        | none => True
        | some s' => okList step ok s' es) :=
      match step s e with
      | none => isTrue trivial
      | some s' => okList.decidable step ok es s'
    inferInstanceAs (Decidable (_ ∧ _))

variable {step : σ → ε → Option σ} {ok : σ → ε → Prop} {s₀ s : σ}

lemma Run.invariant {I : σ → Prop} (h : Run step ok s₀ s) (h0 : I s₀)
    (hstep : ∀ s e s', I s → ok s e → step s e = some s' → I s') : I s := by
  induction h with
  | start => exact h0
  | next _ hok hs ih => exact hstep _ _ _ ih hok hs

lemma Run.mono {ok' : σ → ε → Prop} (h : Run step ok s₀ s) (himp : ∀ s e, ok s e → ok' s e) :
    Run step ok' s₀ s := by
  induction h with
  | start => exact .start
  | next _ hok hs ih => exact .next ih (himp _ _ hok) hs

lemma Run.trans {s1 : σ} (h : Run step ok s₀ s1) (h' : Run step ok s1 s) : Run step ok s₀ s := by
  induction h' with
  | start => exact h
  | next _ hok hs ih => exact .next ih hok hs

lemma Run.of_list : ∀ {es} {s₀ s}, okList step ok s₀ es →
    runList step s₀ es = some s → Run step ok s₀ s
  | [], _, _, _, h => by
    rw [runList, some_inj] at h
    exact h ▸ .start
  | e :: es, s₀, s, hok, h => by
    rw [runList, bind_eq_some_iff] at h
    obtain ⟨s1, hs, hrest⟩ := h
    rw [okList, hs] at hok
    exact (Run.start.next hok.1 hs).trans (Run.of_list hok.2 hrest)

lemma runList_invariant {I : σ → Prop} (hstep : ∀ s e s', I s → step s e = some s' → I s') :
    ∀ {es} {s₀ s}, I s₀ → runList step s₀ es = some s → I s
  | [], _, _, h0, h => by
    rw [runList, some_inj] at h
    exact h ▸ h0
  | e :: es, s₀, s, h0, h => by
    rw [runList, bind_eq_some_iff] at h
    obtain ⟨s1, hs, hrest⟩ := h
    exact runList_invariant hstep (hstep _ _ _ h0 hs) hrest

/-- A run found by executing it: a list of admissible events ends in a state that passes a test. -/
lemma Run.exists_of_any (step : σ → ε → Option σ) (ok : σ → ε → Prop) (s₀ : σ) (es : List ε)
    (p : σ → Prop) [DecidablePred p] (hok : okList step ok s₀ es)
    (h : (runList step s₀ es).any (p ·) = true) : ∃ s, Run step ok s₀ s ∧ p s := by
  grind [any_eq_true, Run.of_list]

lemma Run.exists_of (es : List ε) {p q : σ → Prop} [DecidablePred p] (hok : okList step ok s₀ es)
    (h : (runList step s₀ es).any (p ·) = true) (hq : ∀ s, Run step ok s₀ s → p s → q s) :
    ∃ s, Run step ok s₀ s ∧ q s := by
  obtain ⟨s, hrun, hs⟩ := Run.exists_of_any step ok s₀ es p hok h
  exact ⟨s, hrun, hq s hrun hs⟩

/-! ## Fallible computations -/

lemma bind_ok {α β δ : Type _} {x : Except δ α} {f : α → Except δ β} {b : β} :
    (x >>= f) = .ok b ↔ ∃ a, x = .ok a ∧ f a = .ok b := by
  cases x with
  | error e => exact ⟨fun h => absurd h (by simp [bind, Except.bind]), fun ⟨_, h, _⟩ => by cases h⟩
  | ok a => exact ⟨fun h => ⟨a, rfl, h⟩, fun ⟨_, h, hf⟩ => by cases h; exact hf⟩

lemma pure_ok {α δ : Type _} {a b : α} : (pure a : Except δ α) = .ok b ↔ a = b :=
  ⟨fun h => by cases h; rfl, fun h => h ▸ rfl⟩

lemma toOption_ok {α δ : Type _} {x : Except δ α} {a : α} (h : x.toOption = some a) :
    x = .ok a := by
  cases x with
  | error e => cases h
  | ok b => exact congrArg Except.ok (some_inj.1 h)

end Lib
