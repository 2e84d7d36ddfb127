import Mathlib.Tactic

/-!
# Scanners that wait for more text

A scanner reads a text from the left: at each point it consumes something and emits events, or
gives up, or waits for more text.  Fed with a text in chunks, it keeps what it has not consumed and
goes on when the next chunk is there.  If what it does on a text is also what it does when more
text follows (`Stable`), the chunks do not matter: `feedAll_eq` says that it emits what it emits
for the whole text at once.
-/

namespace Lib
open Option

universe u

variable {σ α ε : Type u}

/-- What a scanner does at a text: wait, give up, or go to a new state and the rest of the text. -/
inductive ScanMove (σ α ε : Type u)
  | wait
  | fail
  | go (st : σ) (rest : List α) (ev : List ε)

/-- The same move with more text behind it. -/
def ScanMove.extend (y : List α) : ScanMove σ α ε → ScanMove σ α ε
  | .wait => .wait
  | .fail => .fail
  | .go st rest ev => .go st (rest ++ y) ev

/-- A scanner; where it goes on, it has consumed something. -/
structure Scanner (σ α ε : Type u) where
  move : σ → List α → ScanMove σ α ε
  consumes : ∀ {st s st' r ev}, move st s = .go st' r ev → r.length < s.length

/-- What a scanner has emitted, its state, and the text it has not consumed. -/
structure Scanned (σ α ε : Type u) where
  events : List ε
  st : σ
  rest : List α

/-- The same after some events. -/
def Scanned.after (ev : List ε) (o : Scanned σ α ε) : Scanned σ α ε :=
  { o with events := ev ++ o.events }

namespace Scanner
variable (m : Scanner σ α ε) {st st' : σ} {s r y : List α} {ev : List ε}

def run : ℕ → σ → List α → Option (Scanned σ α ε)
  | 0, st, s => some ⟨[], st, s⟩
  | n + 1, st, s =>
    match m.move st s with
    | .wait => some ⟨[], st, s⟩
    | .fail => none
    | .go st' r ev => (run n st' r).map (.after ev)

/-- The scanner on a text, until it waits. -/
def scan (st : σ) (s : List α) : Option (Scanned σ α ε) := m.run (s.length + 1) st s

/-- Each move consumes something, so there is no need for more moves than the text is long. -/
lemma run_eq_scan (n : ℕ) (st : σ) (s : List α) (h : s.length < n) :
    m.run n st s = m.scan st s := by
  induction n using Nat.strongRecOn generalizing st s with
  | _ n ih =>
    obtain ⟨k, rfl⟩ : ∃ k, n = k + 1 := ⟨n - 1, by omega⟩
    rw [scan, run, run]
    cases hm : m.move st s with
    | wait => rfl
    | fail => rfl
    | go st' r ev =>
      grind [m.consumes]

lemma scan_wait (h : m.move st s = .wait) : m.scan st s = some ⟨[], st, s⟩ := by
  rw [scan, run, h]

lemma scan_fail (h : m.move st s = .fail) : m.scan st s = none := by
  rw [scan, run, h]

lemma scan_go (h : m.move st s = .go st' r ev) :
    m.scan st s = (m.scan st' r).map (.after ev) := by
  rw [scan, run, h]
  dsimp only
  rw [m.run_eq_scan _ _ _ (m.consumes h)]

/-- More text does not change what the scanner has done. -/
structure Stable : Prop where
  fail : ∀ {st s}, m.move st s = .fail → ∀ y, m.scan st (s ++ y) = none
  go : ∀ {st s st' r ev}, m.move st s = .go st' r ev →
    ∀ y, m.scan st (s ++ y) = (m.scan st' (r ++ y)).map (.after ev)

lemma after_after (a b : List ε) (o : Scanned σ α ε) :
    (o.after b).after a = o.after (a ++ b) := by
  simp only [Scanned.after, List.append_assoc]

variable {m}

lemma Stable.scan_append (h : m.Stable) (st : σ) (s y : List α) :
    m.scan st (s ++ y) =
      (m.scan st s).bind fun o => (m.scan o.st (o.rest ++ y)).map (.after o.events) := by
  -- what the first part leaves is shorter after each move
  induction hn : s.length using Nat.strongRecOn generalizing st s with
  | _ n ih =>
    cases hm : m.move st s with
    | wait =>
      rw [m.scan_wait hm, bind_some]
      exact map_id'.symm
    | fail => rw [m.scan_fail hm, h.fail hm, bind_none]
    | go st' r ev =>
      rw [m.scan_go hm, h.go hm, ih _ (hn ▸ m.consumes hm) st' r rfl]
      cases m.scan st' r with
      | none => rfl
      | some o =>
        rw [map_some, bind_some, bind_some, map_map]
        refine congrArg (fun f => Option.map f _) ?_
        funext x
        exact after_after _ _ _

/-- A scanner stops where it waits. -/
lemma move_rest {o : Scanned σ α ε} (h : m.scan st s = some o) : m.move o.st o.rest = .wait := by
  induction hn : s.length using Nat.strongRecOn generalizing st s o with
  | _ n ih =>
    cases hm : m.move st s with
    | wait =>
      grind [m.scan_wait]
    | fail => rw [m.scan_fail hm] at h; cases h
    | go st' r ev =>
      rw [m.scan_go hm] at h
      obtain ⟨o', ho', rfl⟩ := map_eq_some_iff.1 h
      have hw : m.move o'.st o'.rest = .wait := ih _ (hn ▸ m.consumes hm) ho' rfl
      exact hw

variable (m)

/-- The chunks of a text one after the other, each with what has not been consumed before it. -/
def feedAll (st : σ) (rest : List α) : List (List α) → Option (Scanned σ α ε)
  | [] => some ⟨[], st, rest⟩
  | c :: cs =>
    (m.scan st (rest ++ c)).bind fun o => (feedAll o.st o.rest cs).map (.after o.events)

variable {m}

/-- **The chunks do not matter.** -/
theorem Stable.feedAll_eq (h : m.Stable) (hrest : m.move st r = .wait) (cs : List (List α)) :
    m.feedAll st r cs = m.scan st (r ++ cs.flatten) := by
  induction cs generalizing st r with
  | nil => rw [feedAll, List.flatten_nil, List.append_nil, m.scan_wait hrest]
  | cons c cs ih =>
    rw [feedAll, List.flatten_cons, ← List.append_assoc, h.scan_append st (r ++ c)]
    cases ho : m.scan st (r ++ c) with
    | none => rfl
    | some o =>
      rw [bind_some, bind_some, ih (move_rest ho)]

end Scanner
end Lib
