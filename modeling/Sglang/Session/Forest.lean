import Sglang.Lib.Runs

/-!
# The requests of a session that is not streaming

`Session.create_req` (`session/session_controller.py`) with `append` and `replace` on the tree of
`SessionReqNode`s and the dictionary `req_nodes`.  Request ids are unique, so that a request is
given here by the number of the call that made it.  Of the tokens there is only whether any are
left.

A replace without an id clears the nodes while it enumerates the dictionary they are deleted from
and raises as soon as there is one (`replace_all_raises`).  All other calls keep the dictionary and
the links together (`request_forest_consistent`).
-/

namespace Sglang.Session.Forest
open Lib List Option Function

structure State where
  /-- how many calls there were -/
  next : ℕ
  parent : ℕ → Option ℕ
  children : ℕ → List ℕ
  /-- `finished_reason` is set -/
  finished : ℕ → Bool
  /-- `to_finish` is an abort -/
  marked : ℕ → Bool
  /-- the nodes in `req_nodes`, in the order of insertion -/
  reqNodes : List ℕ

inductive Raised
  /-- `del` of an id that is not there -/
  | keyError
  /-- `dictionary changed size during iteration` -/
  | changedSize
  /-- there is no end to the recursion -/
  | recursion
  deriving DecidableEq

/-- A call of `create_req`: `session_params`, and whether the new request has input tokens. -/
structure Call where
  replace : Bool
  rid : Option ℕ
  hasInput : Bool

inductive Event
  | call (c : Call)
  /-- a request finishes -/
  | finish (r : ℕ)

/-- A node of the forest at or below `r`. -/
inductive Below (parent : ℕ → Option ℕ) (r : ℕ) : ℕ → Prop
  | self : Below parent r r
  | step {x y : ℕ} (hp : parent x = some y) (h : Below parent r y) : Below parent r x

section
variable {parent : ℕ → Option ℕ} (horder : ∀ c r, parent c = some r → r < c) {r x y c c' : ℕ}

lemma Below.of_child (hc : parent c = some r) (h : Below parent c x) : Below parent r x := by
  induction h with
  | self => exact .step hc .self
  | step hp _ ih => exact .step hp ih

include horder

/-- A request is numbered after the one it continues. -/
lemma Below.le (h : Below parent r x) : r ≤ x := by
  induction h with
  | self => exact Nat.le_refl r
  | step hp _ ih => exact Nat.le_trans ih (Nat.le_of_lt (horder _ _ hp))

/-- To be strictly below is to have the parent below. -/
lemma Below.parent_iff (hp : parent x = some y) :
    x ≠ r ∧ Below parent r x ↔ Below parent r y := by
  have hlt := horder x y hp
  constructor
  · rintro ⟨hne, h⟩
    cases h with
    | self => exact absurd rfl hne
    | step hp' h => exact some_inj.1 (hp'.symm.trans hp) ▸ h
  · intro h
    have := h.le horder
    exact ⟨by omega, h.step hp⟩

/-- What is below two children of a node is below one. -/
lemma Below.eq_of_children (hc : parent c = some r) (hc' : parent c' = some r)
    (h : Below parent c x) (h' : Below parent c' x) : c = c' := by
  have hlt := horder c r hc
  have hlt' := horder c' r hc'
  induction h with
  | self =>
    cases h' with
    | self => rfl
    | step hp h' =>
      obtain rfl := some_inj.1 (hc.symm.trans hp)
      have := h'.le horder
      omega
  | step hp h ih =>
    cases h' with
    | self =>
      obtain rfl := some_inj.1 (hc'.symm.trans hp)
      have := h.le horder
      omega
    | step hp' h' =>
      obtain rfl := some_inj.1 (hp.symm.trans hp')
      exact ih h'

end

namespace State

def start : State := ⟨0, fun _ => none, fun _ => [], fun _ => false, fun _ => false, []⟩

variable (s : State)

/-- `SessionReqNode.abort` -/
def abort (r : ℕ) : State := { s with marked := update s.marked r (s.marked r || !s.finished r) }

/-- `SessionReqNode.clear` -/
def clear : ℕ → State → ℕ → Except Raised State
  | 0, _, _ => .error .recursion
  | fuel + 1, s, r =>
    (s.children r).foldlM (clear fuel) s >>= fun s =>
      if r ∈ s.reqNodes then .ok { s.abort r with reqNodes := s.reqNodes.erase r }
      else .error .keyError

/-- `SessionReqNode.clear_children` -/
def clearChildren (r : ℕ) : Except Raised State :=
  (s.children r).foldlM (clear s.next) s >>= fun s =>
    .ok { s with children := update s.children r [] }

/-- The loop over `req_nodes.items()`: the iterator compares the size before each item and at the
end. -/
def clearItems (size : ℕ) : List ℕ → State → Except Raised State
  | [], s => if s.reqNodes.length = size then .ok s else .error .changedSize
  | r :: rs, s =>
    if s.reqNodes.length = size then s.clear s.next r >>= clearItems size rs
    else .error .changedSize

/-- The new node, with its parent. -/
def insert (last : Option ℕ) : State :=
  { s with
    parent := update s.parent s.next last
    children := fun x => if x = s.next then [] else
      if last = some x then s.children x ++ [s.next] else s.children x
    reqNodes := s.reqNodes ++ [s.next] }

/-- The node the call names and the state after a replace, and whether the call is refused. -/
def resolve (c : Call) : Except Raised (State × Option ℕ × Bool) :=
  if c.replace then
    match c.rid with
    | none => clearItems s.reqNodes.length s.reqNodes s >>= fun s => .ok (s, none, false)
    | some r =>
      if r ∉ s.reqNodes then .ok (s, none, true)
      else (s.abort r).clearChildren r >>= fun s => .ok (s, some r, false)
  else
    match c.rid with
    | none => .ok (s, none, false)
    | some r => if r ∉ s.reqNodes then .ok (s, none, true) else .ok (s, some r, !s.finished r)

/-- `create_req`; a refused request is marked and has no node. -/
def createReq (c : Call) : Except Raised State :=
  s.resolve c >>= fun (s, last, refused) =>
    let refused := refused || !c.hasInput
    let s := if refused then { s with marked := update s.marked s.next true }
      else { s.insert last with marked := update s.marked s.next false }
    .ok { s with finished := update s.finished s.next false, next := s.next + 1 }

def step : Event → Option State
  | .call c => (s.createReq c).toOption
  | .finish r => some { s with finished := update s.finished r true }

/-- A replace without an id finds no node. -/
def Allowed : Event → Prop
  | .call c => c.replace = true → c.rid = none → s.reqNodes = []
  | .finish _ => True

instance (s : State) (e : Event) : Decidable (s.Allowed e) :=
  match e with
  | .call c => inferInstanceAs (Decidable (c.replace = true → c.rid = none → s.reqNodes = []))
  | .finish _ => isTrue trivial

/-- **The dictionary holds the forest**: the children of a node in it are the nodes in it with this
parent, and the parent of a node in it is in it. -/
structure Consistent (s : State) : Prop where
  nodup : s.reqNodes.Nodup
  lt : ∀ r ∈ s.reqNodes, r < s.next
  children : ∀ r ∈ s.reqNodes, (s.children r).Nodup ∧
    ∀ c, c ∈ s.children r ↔ c ∈ s.reqNodes ∧ s.parent c = some r
  parent : ∀ c ∈ s.reqNodes, ∀ r, s.parent c = some r → r ∈ s.reqNodes
  order : ∀ c r, s.parent c = some r → r < c

/-- A node of the dictionary at or below `r`. -/
def Under (r x : ℕ) : Prop := x ∈ s.reqNodes ∧ Below s.parent r x

/-- The nodes a call drops: those below the node it replaces, without this one. -/
def Dropped (c : Call) (x : ℕ) : Prop :=
  c.replace = true ∧ ∃ r ∈ s.reqNodes, c.rid = some r ∧ x ≠ r ∧ s.Under r x

/-- The call names no node, or one it can continue. -/
def Accepts (c : Call) : Prop :=
  ∀ r, c.rid = some r → r ∈ s.reqNodes ∧ (c.replace = true ∨ s.finished r = true)

/-- What a call does: dropped nodes go and their unfinished requests are marked, as is that of the
node that is replaced; the new request has a node or is marked itself; nothing else changes. -/
structure Effect (s : State) (c : Call) (s' : State) : Prop where
  consistent : s'.Consistent
  mem : ∀ x, x ∈ s'.reqNodes ↔
    x ∈ s.reqNodes ∧ ¬s.Dropped c x ∨ x = s.next ∧ s.Accepts c ∧ c.hasInput = true
  parent : ∀ x ∈ s'.reqNodes, s'.parent x = if x = s.next then c.rid else s.parent x
  marked : ∀ x, s'.marked x = true ↔ if x = s.next then x ∉ s'.reqNodes else
    s.marked x = true ∨ s.finished x = false ∧
      (s.Dropped c x ∨ c.replace = true ∧ c.rid = some x ∧ x ∈ s.reqNodes)

/-! ## Clearing -/

open Classical in
/-- The state after the nodes with `P` were cleared. -/
noncomputable def without (P : ℕ → Prop) : State :=
  { s with
    reqNodes := s.reqNodes.filter fun x => ¬P x
    marked := fun x => s.marked x || decide (P x) && !s.finished x }

variable {s : State} {P Q : ℕ → Prop} {fuel r x : ℕ}

lemma mem_without : x ∈ (s.without P).reqNodes ↔ x ∈ s.reqNodes ∧ ¬P x := by
  simp [without]

lemma without_without : (s.without P).without Q = s.without fun x => P x ∨ Q x := by
  simp only [without, List.filter_filter, State.mk.injEq, true_and]
  refine ⟨funext fun x => ?_, filter_congr fun x _ => ?_⟩
  · grind
  · grind

/-- One node is marked and deleted. -/
lemma without_eq (hnd : s.reqNodes.Nodup) :
    s.without (· = r) = { s.abort r with reqNodes := s.reqNodes.erase r } := by
  rw [hnd.erase_eq_filter]
  simp only [without, abort, State.mk.injEq, true_and]
  refine ⟨funext fun x => ?_, filter_congr fun x _ => ?_⟩
  · rw [update_apply]
    grind
  · grind

/-- With the links of `s₀`, `f` clears the nodes with `P`. -/
def Clears (s₀ : State) (P : ℕ → Prop) (f : State → Except Raised State) : Prop :=
  ∀ s, s.children = s₀.children → s.reqNodes.Nodup → (∀ x, P x → x ∈ s.reqNodes) →
    f s = .ok (s.without P)

section
variable {s₀ : State} (h₀ : s₀.Consistent)

include h₀

/-- Below a node of the dictionary are its children and what is below them. -/
lemma Consistent.under_children (hr : r ∈ s₀.reqNodes) :
    (∃ c ∈ s₀.children r, s₀.Under c x) ↔ x ≠ r ∧ s₀.Under r x := by
  have hmem := (h₀.children r hr).2
  constructor
  · rintro ⟨c, hc, hx, hb⟩
    have hp := ((hmem c).1 hc).2
    have := hb.le h₀.order
    have := h₀.order c r hp
    exact ⟨by omega, hx, hb.of_child hp⟩
  · rintro ⟨hne, hx, hb⟩
    induction hb with
    | self => exact absurd rfl hne
    | @step x y hp h ih =>
      have hy := h₀.parent x hx y hp
      by_cases hyr : y = r
      · exact ⟨x, (hmem x).2 ⟨hx, hyr ▸ hp⟩, hx, .self⟩
      · obtain ⟨c, hc, -, hcy⟩ := ih hyr hy
        exact ⟨c, hc, hx, hcy.step hp⟩

/-- A list of children is cleared, when each of them is. -/
lemma clears_list : ∀ cs : List ℕ, cs.Nodup → (∀ c ∈ cs, s₀.parent c = some r) →
    (∀ c ∈ cs, Clears s₀ (s₀.Under c) fun s => s.clear fuel c) →
    Clears s₀ (fun x => ∃ c ∈ cs, s₀.Under c x) (cs.foldlM (clear fuel))
  | [], _, _, _, s, _, _, _ => by simp [without, pure, Except.pure]
  | c :: cs, hnd, hcs, hclear, s, hlinks, hnodes, hin => by
    simp only [exists_mem_cons_iff, forall_mem_cons, or_imp, forall_and] at *
    obtain ⟨hnotin, hnd⟩ := nodup_cons.1 hnd
    have hrest := clears_list cs hnd hcs.2 hclear.2 (s.without (s₀.Under c)) hlinks
      (hnodes.filter _) fun x hx => mem_without.2 ⟨hin.2 x hx, fun h => by
        obtain ⟨c', hc', hb⟩ := hx
        exact hnotin (Below.eq_of_children h₀.order hcs.1 (hcs.2 c' hc') h.2 hb.2 ▸ hc')⟩
    rw [without_without] at hrest
    exact (congrArg (· >>= _) (hclear.1 s hlinks hnodes hin.1)).trans hrest

/-- What is below a node is cleared, when each of its children is. -/
lemma clears_children (hr : r ∈ s₀.reqNodes)
    (hclear : ∀ c ∈ s₀.children r, Clears s₀ (s₀.Under c) fun s => s.clear fuel c) :
    Clears s₀ (fun x => x ≠ r ∧ s₀.Under r x) ((s₀.children r).foldlM (clear fuel)) := by
  obtain ⟨hnd, hmem⟩ := h₀.children r hr
  have := clears_list h₀ _ hnd (fun c hc => ((hmem c).1 hc).2) hclear
  simpa only [h₀.under_children hr] using this

/-- `clear` removes a request with everything that continues it; the numbers bound its depth. -/
lemma clears_clear : ∀ {fuel r}, s₀.next ≤ r + fuel → r ∈ s₀.reqNodes →
    Clears s₀ (s₀.Under r) fun s => s.clear fuel r
  | 0, r, hf, hr => absurd (h₀.lt r hr) (by omega)
  | fuel + 1, r, hf, hr => fun s hlinks hnodes hin => by
    have hmem := (h₀.children r hr).2
    have hclear : ∀ c ∈ s₀.children r, Clears s₀ (s₀.Under c) fun s => s.clear fuel c :=
      fun c hc => by
        have := h₀.order c r ((hmem c).1 hc).2
        exact clears_clear (by omega) ((hmem c).1 hc).1
    have hbelow := clears_children h₀ hr hclear s hlinks hnodes fun x hx => hin x hx.2
    have hself : r ∈ (s.without fun x => x ≠ r ∧ s₀.Under r x).reqNodes :=
      mem_without.2 ⟨hin r ⟨hr, .self⟩, fun h => h.1 rfl⟩
    have hunder : s₀.Under r = fun x => (x ≠ r ∧ s₀.Under r x) ∨ x = r := by
      funext x
      by_cases hx : x = r
      · simp [hx, Under, hr, Below.self]
      · simp [hx]
    rw [hunder, ← without_without, without_eq (hnodes.filter _)]
    show ((s.children r).foldlM (clear fuel) s >>= _) = _
    rw [hlinks]
    exact (congrArg (· >>= _) hbelow).trans (if_pos hself)

/-! ## A call -/

/-- What is left of the forest when everything below a node is gone. -/
lemma Consistent.prune : { (s₀.abort r).without fun x => x ≠ r ∧ s₀.Under r x with
    children := update s₀.children r [] }.Consistent := by
  have hmem : ∀ {x}, x ∈ ((s₀.abort r).without fun x => x ≠ r ∧ s₀.Under r x).reqNodes →
      x ∈ s₀.reqNodes := fun hx => (mem_without.1 hx).1
  refine ⟨h₀.nodup.filter _, fun x hx => h₀.lt x (hmem hx), fun x hx => ?_, fun c hc y hp => ?_,
    h₀.order⟩
  · obtain ⟨hnd, hch⟩ := h₀.children x (hmem hx)
    have hkept := (mem_without.1 hx).2
    have := fun c => Below.parent_iff (r := r) (x := c) (y := x) h₀.order
    simp only [mem_without, update_apply]
    by_cases hxr : x = r
    · have hbelow : Below s₀.parent r x := hxr ▸ .self
      refine ⟨by simp [hxr], fun c => ?_⟩
      grind [abort, without, Under]
    · rw [if_neg hxr]
      refine ⟨hnd, fun c => ?_⟩
      grind [abort, without, Under]
  · have hkept := (mem_without.1 hc).2
    have := Below.parent_iff (r := r) h₀.order hp
    have := h₀.parent c (hmem hc) y hp
    refine mem_without.2 ⟨this, ?_⟩
    grind [Under]

/-- Below the node that is replaced all nodes go. -/
lemma Consistent.clearChildren_ok (hr : r ∈ s₀.reqNodes) :
    (s₀.abort r).clearChildren r = .ok { (s₀.abort r).without fun x => x ≠ r ∧ s₀.Under r x with
      children := update s₀.children r [] } :=
  congrArg (· >>= _) (clears_children h₀ hr (fun c hc => clears_clear h₀
    (Nat.le_add_left _ _) (((h₀.children r hr).2 c).1 hc).1) (s₀.abort r) rfl h₀.nodup
    fun _ hx => hx.2.1)

/-- The enumeration raises after the first node. -/
lemma Consistent.clearItems_raises (hne : s₀.reqNodes ≠ []) :
    clearItems s₀.reqNodes.length s₀.reqNodes s₀ = .error .changedSize := by
  obtain ⟨r, rs, hrs⟩ := exists_cons_of_ne_nil hne
  have hr : r ∈ s₀.reqNodes := hrs ▸ mem_cons_self
  have hclear := clears_clear h₀ (Nat.le_add_left _ _) hr s₀ rfl h₀.nodup fun x hx => hx.1
  have hlen : (s₀.without (s₀.Under r)).reqNodes.length ≠ s₀.reqNodes.length := fun h =>
    (mem_without.1 (filter_sublist.eq_of_length h ▸ hr)).2 ⟨hr, .self⟩
  rw [hrs, clearItems, if_pos (hrs ▸ rfl)]
  refine (congrArg (· >>= _) hclear).trans ?_
  cases rs with
  | nil => exact if_neg (hrs ▸ hlen)
  | cons => exact if_neg (hrs ▸ hlen)

/-- The new node joins the forest. -/
lemma Consistent.insert_last {last : Option ℕ} (hlast : ∀ r, last = some r → r ∈ s₀.reqNodes)
    {finished marked : ℕ → Bool} :
    { s₀.insert last with finished, marked, next := s₀.next + 1 }.Consistent := by
  obtain ⟨hnd, hlt, hch, hpar, hord⟩ := h₀
  have hnew : s₀.next ∉ s₀.reqNodes := fun h => Nat.lt_irrefl _ (hlt _ h)
  have hmem : ∀ x, x ∈ (s₀.insert last).reqNodes ↔ x ∈ s₀.reqNodes ∨ x = s₀.next := by
    simp [insert]
  have hparent : ∀ x, (s₀.insert last).parent x = if x = s₀.next then last else s₀.parent x :=
    fun _ => update_apply ..
  have hadd : ∀ {l}, l.Nodup → s₀.next ∉ l → (l ++ [s₀.next]).Nodup := fun h h' =>
    h.append (nodup_singleton _) (by simpa using h')
  refine ⟨hadd hnd hnew, fun r hr => ?_, fun r hr => ?_, fun c hc r hp => ?_, fun c r hp => ?_⟩
  · have := (hmem r).1 hr
    grind
  · have hr := (hmem r).1 hr
    have hchildren : (s₀.insert last).children r = if r = s₀.next then [] else
      if last = some r then s₀.children r ++ [s₀.next] else s₀.children r := rfl
    simp only [hmem, hparent, hchildren]
    split_ifs with hn hl
    · grind
    · have := (hch r (hr.resolve_right hn)).2
      refine ⟨hadd (hch r (hr.resolve_right hn)).1 fun h => hnew ((this _).1 h).1, ?_⟩
      grind
    · have := hch r (hr.resolve_right hn)
      grind
  · have := (hmem c).1 hc
    have := (hparent c).symm.trans hp
    grind
  · have := (hparent c).symm.trans hp
    grind

/-- The part of a call before the new request. -/
lemma Consistent.exists_resolve {c : Call} (hok : s₀.Allowed (.call c)) :
    ∃ s1 last refused, s₀.resolve c = .ok (s1, last, refused) ∧ s1.Consistent ∧
      s1.next = s₀.next ∧ s1.parent = s₀.parent ∧
      (∀ x, x ∈ s1.reqNodes ↔ x ∈ s₀.reqNodes ∧ ¬s₀.Dropped c x) ∧
      (∀ x, s1.marked x = true ↔ s₀.marked x = true ∨ s₀.finished x = false ∧
        (s₀.Dropped c x ∨ c.replace = true ∧ c.rid = some x ∧ x ∈ s₀.reqNodes)) ∧
      (refused = false ↔ s₀.Accepts c) ∧ (refused = false → last = c.rid) := by
  obtain ⟨replace, rid, hasInput⟩ := c
  rw [resolve]
  cases rid with
  | none =>
    refine ⟨s₀, none, false, ?_, h₀, rfl, rfl, ?_, ?_, ?_, fun _ => rfl⟩
    · cases replace with
      | false => rfl
      | true =>
        have hnil : s₀.reqNodes = [] := hok rfl rfl
        simp [hnil, clearItems, bind, Except.bind]
    · simp [Dropped]
    · simp [Dropped]
    · simp [Accepts]
  | some r =>
    by_cases hr : r ∈ s₀.reqNodes
    · cases replace with
      | false =>
        refine ⟨s₀, some r, !s₀.finished r, ?_, h₀, rfl, rfl, ?_, ?_, ?_, fun _ => rfl⟩
        · simp [hr]
        · simp [Dropped]
        · simp [Dropped]
        · simp [Accepts, hr]
      | true =>
        refine ⟨_, some r, false, ?_, h₀.prune (r := r), rfl, rfl, ?_, ?_, ?_, fun _ => rfl⟩
        · simp [hr, h₀.clearChildren_ok hr, bind, Except.bind]
        · intro x
          simp [Dropped, mem_without, abort, hr]
        · intro x
          simp only [Dropped, without, abort, update_apply]
          grind
        · simp [Accepts, hr]
    · refine ⟨s₀, none, true, ?_, h₀, rfl, rfl, ?_, ?_, ?_, by simp⟩
      · simp [hr]
      · simp [Dropped, hr]
      · simp only [Dropped]
        grind
      · simp [Accepts, hr]

/-- A call that is allowed does not fail, and has the effect that it should have. -/
lemma Consistent.exists_createReq {c : Call} (hok : s₀.Allowed (.call c)) :
    ∃ s', s₀.createReq c = .ok s' ∧ s₀.Effect c s' := by
  obtain ⟨s1, last, refused, hres, h1, hnext, hparent, hmem, hmarked, hacc, hlast⟩ :=
    h₀.exists_resolve hok
  have hnew : s₀.next ∉ s1.reqNodes := fun h => Nat.lt_irrefl _ (hnext ▸ h1.lt _ h)
  rw [createReq, hres]
  refine ⟨_, rfl, ?_⟩
  cases hrefused : refused || !c.hasInput with
  | true =>
    refine ⟨⟨h1.nodup, fun r hr => Nat.lt_succ_of_lt (h1.lt r hr), h1.children, h1.parent,
      h1.order⟩, fun x => ?_, fun x hx => ?_, fun x => ?_⟩
    · exact (hmem x).trans (by grind)
    · exact (congrFun hparent x).trans (if_neg (ne_of_mem_of_not_mem hx hnew)).symm
    · simp only [if_true, update_apply, hnext]
      grind
  | false =>
    have hin : ∀ r, last = some r → r ∈ s1.reqNodes := by
      simp only [Accepts, Dropped] at hacc hmem
      grind
    refine ⟨h1.insert_last hin, fun x => ?_, fun x hx => ?_, fun x => ?_⟩
    · simp [insert, hmem, hnext]
      grind
    · simp [insert, update_apply, hnext, hparent]
      grind
    · simp [insert, update_apply, hnext]
      grind

end
end State

open State

/-- In every run the nodes, their parents and their children agree. -/
lemma Run.consistent {s : State} (hs : Run step Allowed start s) : s.Consistent := by
  refine hs.invariant ⟨nodup_nil, ?_, ?_, ?_, ?_⟩ fun s e s' h hok hs => ?_
  · simp [start]
  · simp [start]
  · simp [start]
  · simp [start]
  · cases e with
    | finish r =>
      obtain rfl := some_inj.1 hs
      exact ⟨h.nodup, h.lt, h.children, h.parent, h.order⟩
    | call c =>
      obtain ⟨s1, hs1, heff⟩ := h.exists_createReq hok
      obtain rfl := Except.ok.inj (hs1.symm.trans (toOption_ok hs))
      exact heff.consistent

/-- **The tree of requests stays consistent**: in every state of every run whose replaces without
an id find no node, exactly the calls that are no such replace end well, and those have the effect
they are meant to have. -/
theorem request_forest_consistent {s : State} (hs : Run step Allowed start s) :
    s.Consistent ∧ ∀ c, (∃ s', s.createReq c = .ok s' ∧ s.Effect c s') ↔ s.Allowed (.call c) := by
  have h := Run.consistent hs
  refine ⟨h, fun c => ⟨?_, fun hok => h.exists_createReq hok⟩⟩
  rintro ⟨s', hs', -⟩ hrep hrid
  by_contra hne
  rw [createReq, resolve, hrid, if_pos hrep, h.clearItems_raises hne] at hs'
  cases hs'

/-- A request, two that continue it once it is done, and one that replaces it. -/
def branches : List Event :=
  [.call ⟨true, none, true⟩, .finish 0, .call ⟨false, some 0, true⟩, .call ⟨false, some 0, true⟩,
    .finish 1]

theorem request_forest_replaced :
    ∃ s, Run step Allowed start s ∧ (s.Consistent ∧ s.reqNodes = [0, 1, 2]) ∧
      ∃ s', s.createReq ⟨true, some 0, true⟩ = .ok s' ∧ s.Effect ⟨true, some 0, true⟩ s' ∧
        s'.reqNodes = [0, 3] ∧ s'.marked 1 = false ∧ s'.marked 2 = true := by
  refine Run.exists_of branches (p := fun s => s.reqNodes = [0, 1, 2] ∧
      ∃ s' ∈ (s.createReq ⟨true, some 0, true⟩).toOption,
        s'.reqNodes = [0, 3] ∧ s'.marked 1 = false ∧ s'.marked 2 = true)
    (by decide) (by decide) fun s hs hp => ?_
  obtain ⟨h, hall⟩ := request_forest_consistent hs
  obtain ⟨s', hs', heff⟩ := (hall ⟨true, some 0, true⟩).2 (by simp [Allowed])
  rw [hs'] at hp
  simp [Except.toOption] at hp
  exact ⟨⟨h, hp.1⟩, s', hs', heff, hp.2⟩

/-- A replace without an id after one request. -/
theorem replace_all_raises :
    ((runList step start [.call ⟨false, none, true⟩]).map
      fun s => (s.createReq ⟨true, none, true⟩).toOption.isSome) = some false := by
  decide

end Sglang.Session.Forest
