import Sglang.Sticky.Health
import Sglang.Sticky.Pin

/-!
# When a health check leaves the pinned conversation alone

The lookup and the finish of a health check are guarded, so the slot, the ids and the row of the
pin are as before.  Its prefill starts at `0`, though, and clears the boundary store: afterwards the
worker can resume at the length of the check's prompt and nowhere else, and what it resumes there is
the device state the check left.

* `resumeAt_checked` — what the store of a check can resume;
* `prepare_of_load` — a hand-off that reads a saved image does not depend on the store;
* `health_check_undisturbed` — when the pin and the next request are not disturbed.
-/

namespace Sglang.Sticky
open Lib Option Store Joint Cache List

variable {Key Rows Ring : Type}

/-! ## What the worker can resume -/

/-- A store with one image, taken after a prefill, can be resumed at its length alone. -/
lemma resumeAt_checked (Key : Type) (rings : Paired Ring) (live : Live Rows Ring) {n : Nat}
    (start : Nat) (hn : 0 < n) : (start = n → ∃ s,
        (resumeAt (Store.empty.backupTip rings n true) live start :
          Except (BoundaryFault Key) _) = .ok (s, live)) ∧
      (start ≠ n → ∃ e, (resumeAt (Store.empty.backupTip rings n true) live start :
          Except (BoundaryFault Key) _) = .error e) := by
  have hslack : (empty.backupTip rings n true).verifyTipIsPinSlack start = false := by
    rw [verifyTipIsPinSlack, if_pos (by simp [backupTip])]
  have hfile : (empty.backupTip rings n true).fileTip false start =
      ⟨n, n, false, some rings, [(n, rings)], [n]⟩ := by
    have hne : n ≠ 0 := Nat.ne_of_gt hn
    simp [fileTip, freezeTip, backupTip, empty, Store.keys, evictRecent, boundaryKeep, hne, hn]
  rw [resumeAt, hslack, hfile]
  constructor
  · rintro rfl
    exact ⟨_, if_pos rfl⟩
  · intro hne
    rw [if_neg hne]
    split
    · exact ⟨_, rfl⟩
    · have hbeq : (start == n) = false := by simpa using hne
      simp [restore, hne, lookup_cons, hbeq]

/-- A store whose tip does not run past `start`, and whose image ends there, is resumed without
touching the device. -/
lemma resumeAt_resident (Key : Type) {s : Store Ring} (live : Live Rows Ring) {start : Nat}
    (hend : s.residentEnd = start) (htip : s.tipLen ≤ start) : ∃ s',
      (resumeAt s live start : Except (BoundaryFault Key) _) = .ok (s', live) := by
  have hslack : s.verifyTipIsPinSlack start = false := by
    rw [verifyTipIsPinSlack, if_pos (.inr (.inr (.inl htip)))]
  have hfile : (s.fileTip false start).residentEnd = s.residentEnd := by
    grind [fileTip, freezeTip]
  rw [resumeAt, hslack]
  exact ⟨_, if_pos (hfile.trans hend).symm⟩

/-- Whether the worker can resume does not depend on the device state. -/
lemma resumeAt_live {s s' : Store Ring} {live live' : Live Rows Ring} {start : Nat}
    (h : (resumeAt s live start : Except (BoundaryFault Key) _) = .ok (s', live'))
    (live2 : Live Rows Ring) :
    ∃ live3, (resumeAt s live2 start : Except (BoundaryFault Key) _) = .ok (s', live3) ∧
      (live2 = live → live3 = live') := by
  by_cases heq : live2 = live
  · exact ⟨live', heq ▸ h, fun _ => rfl⟩
  · rw [resumeAt] at h ⊢
    dsimp only at h ⊢
    split at h
    · cases h
      exact ⟨live2, if_pos ‹_›, fun h => absurd h heq⟩
    · split at h
      · cases h
      rename_i hne hle
      rw [if_neg hne, if_neg hle]
      rw [restore_eq] at h ⊢
      cases hsnap : (s.fileTip (s.verifyTipIsPinSlack start) start).snapsAt start with
      | none =>
        rw [hsnap] at h
        cases h
      | some snap =>
        rw [hsnap] at h
        cases h
        exact ⟨_, rfl, fun h => absurd h heq⟩

section
variable [DecidableEq Key] {cfg : SessionConfig Key} {session : SessionState Key Rows Ring}
  {s s' : Store Ring} {live live' : Live Rows Ring} {start : Nat}

lemma prepare_zero (cfg : SessionConfig Key) (session : SessionState Key Rows Ring)
    (s : Store Ring) (live : Live Rows Ring) :
    ∃ session', csa2PrepareExtend cfg session s live 0 = .ok (session', Store.empty, live) := by
  simp [csa2PrepareExtend]

lemma prepare_of_no_handoff (hspill : session.spill = none) (hload : session.load = none)
    (hstart : 0 < start) : csa2PrepareExtend cfg session s live start =
      (resumeAt s live start).map fun r => (session, r) := by
  rw [csa2PrepareExtend, takeHandoff_none hspill hload]
  show (if start = 0 then _ else _) = _
  rw [if_neg (Nat.ne_of_gt hstart)]
  show ((resumeAt s live start : Except (BoundaryFault Key) _) >>= _) = _
  cases (resumeAt s live start : Except (BoundaryFault Key) _) <;> rfl

lemma lookup_saveResident {key k : Key} (hne : k ≠ key) :
    (session.saveResident cfg s live k).blobs.lookup key = session.blobs.lookup key := by
  have hfilter : ∀ blobs : List (Key × Blob Rows Ring),
      (blobs.filter fun b => b.1 ≠ k).lookup key = blobs.lookup key := by
    intro blobs
    induction blobs with
    | nil => rfl
    | cons b blobs ih =>
      grind
  rw [SessionState.saveResident]
  split
  · rfl
  have hkey : (key == k) = false := by simpa using hne.symm
  rw [lookup_append, hfilter, lookup_cons, hkey]
  simp

lemma takeLoad_some (key : Key) : takeLoad cfg session s live start (some key) =
    if !cfg.sessionsEnabled then .error (.sessionLoadMissed key start)
    else match session.blobs.lookup key with
      | none => .error (.sessionLoadMissed key start)
      | some blob => .ok (session.touchMeta key, ⟨blob.residentEnd, 0, false, none,
            blob.order.filterMap fun n => (blob.history.lookup n).map fun snap => (n, snap),
            blob.order⟩, blob.labels.copyInto live) := by
  rw [takeLoad, SessionState.loadResident]
  cases cfg.sessionsEnabled with
  | false => rfl
  | true => cases session.blobs.lookup key <;> rfl

lemma lookup_takeSpill {key : Key} {spill : Option Key} (hne : spill ≠ some key) :
    (takeSpill cfg session s live spill).1.blobs.lookup key = session.blobs.lookup key := by
  cases spill with
  | none => rfl
  | some k => exact lookup_saveResident fun h => hne (congrArg some h)

/-- **A resume of a saved image does not depend on the store**, as long as the spill that goes with
it is of another conversation; nor does it on the device state, but for what the image leaves there.
-/
theorem prepare_of_load {key : Key} {session1 : SessionState Key Rows Ring} {s1 : Store Ring}
    (hload : session.load = some key) (hspill : session.spill ≠ some key) (hstart : 0 < start)
    (hok : csa2PrepareExtend cfg session s live start = .ok (session1, s1, live'))
    (s' : Store Ring) (live2 : Live Rows Ring) : ∃ session2 s2 live3,
      csa2PrepareExtend cfg session s' live2 start = .ok (session2, s2, live3) ∧
        (live2 = live → live3 = live') := by
  have hne : start ≠ 0 := Nat.ne_of_gt hstart
  have hprep : ∀ s live, csa2PrepareExtend cfg session s live start =
      takeLoad cfg (takeSpill cfg { session with spill := none, load := none } s live
        session.spill).1 (takeSpill cfg { session with spill := none, load := none } s live
        session.spill).2 live start (some key) >>= fun r =>
        resumeAt r.2.1 r.2.2 start >>= fun r' => pure (r.1, r') := by
    intro s live
    rw [csa2PrepareExtend, SessionState.takeHandoff, hload]
    exact if_neg hne
  rw [hprep, bind_ok] at hok
  obtain ⟨r, hr, hok⟩ := hok
  rw [takeLoad_some, lookup_takeSpill hspill] at hr
  rw [hprep, takeLoad_some, lookup_takeSpill hspill]
  split at hr
  · cases hr
  rename_i hon
  rw [if_neg hon]
  split at hr
  · cases hr
  rw [Except.ok.injEq] at hr
  subst hr
  rw [bind_ok] at hok
  obtain ⟨⟨s2, _⟩, hres, hok⟩ := hok
  rw [pure_ok, Prod.mk.injEq, Prod.mk.injEq] at hok
  obtain ⟨-, -, rfl⟩ := hok
  obtain ⟨live3, hres3, hsame⟩ := resumeAt_live hres (Paired.copyInto _ live2)
  exact ⟨_, s2, live3, bind_ok.2 ⟨_, rfl, bind_ok.2 ⟨_, hres3, rfl⟩⟩,
    fun h => hsame (congrArg _ h)⟩

end

/-! ## Lookups on a pinned conversation -/

section
variable [DecidableEq Key] {cfg : SessionConfig Key} {c c₁ : Cache Key Rows Ring} {ref idx : Nat}
  {key : RadixKey} {req r₁ : Req} {ids : List Token}

/-- The conversation that is on the device is not among those that can be adopted. -/
lemma bestSession_ne {session : SessionState Key Rows Ring} {current : Option Key} {saved : Key}
    {n : Nat} (h : bestSession cfg session current key = (some saved, n)) :
    some saved ≠ current := by
  have hfold := foldlRecOn
    (motive := fun best : Option Key × Nat => ∀ k, best.1 = some k → some k ≠ current)
    ((session.listSessions cfg).filter (Cache.eligible cfg session current key))
    (Cache.pickLonger key.rawTokenIds) (b := (none, 0)) (fun k hk => (by cases hk))
    fun best hb record hr => by
      grind [eligible, pickLonger]
  rw [bestSession] at h
  rw [h] at hfold
  exact hfold saved rfl

/-- A saved conversation that is adopted is not the one that is spilled. -/
lemma handoff_matchSavedSession {m : MatchResult} (hspill : c.session.spill = none)
    (hok : c.matchSavedSession cfg key req = .ok (c₁, r₁, some m)) :
    ∃ saved, c₁.session.load = some saved ∧ c₁.session.spill ≠ some saved := by
  rw [matchSavedSession] at hok
  split at hok
  · cases hok
  dsimp only at hok
  split at hok
  · cases hok
  rename_i saved n hbest
  have hother := bestSession_ne hbest
  have hask : (c.spillCurrent cfg).session.spill ≠ some saved := by
    rw [spillCurrent]
    split
    · rw [hspill]
      simp
    · rename_i current hcur
      rw [hcur] at hother
      exact hother.symm
  have hens := ensured_ensureSlot (c.spillCurrent cfg) n
  cases adoptSaved_iff.1 hok with
  | adopted _ _ heq _ htail =>
    rw [heq] at hens
    have hsess := (SamePin.freeTail htail).session
    refine ⟨saved, congrArg SessionState.load hsess, fun h => hask ?_⟩
    have hfinal := congrArg SessionState.spill (hsess.trans (congrArg
      (fun s : SessionState Key Rows Ring => s.requestLoad saved) hens.session))
    exact hfinal.symm.trans h

lemma lookup_pinned {res : Option MatchResult} (href : c.slot = some ref)
    (hids : c.lastIds = some ids) (hidx : (c.heap ref).reqPoolIdx = some idx)
    (hspill : c.session.spill = none)
    (hok : c.matchPrefix cfg key req = .ok (c₁, r₁, res)) (hpos : 0 < r₁.prefixIndices.length) :
    (c₁.session = c.session ∧ 0 < (c.hitLen key ids).1 ∧
        r₁.prefixIndices.length = min (c.hitLen key ids).1 c.pool.maxContextLen) ∨
      ∃ saved, c₁.session.load = some saved ∧ c₁.session.spill ≠ some saved := by
  obtain ⟨r2, hcase, rfl⟩ := matchPrefix_cases hok
  cases hcase with
  | health _ => exact absurd hpos (lt_irrefl 0)
  | stale _ hs _ hnone _ =>
    grind
  | unpinned _ hno _ =>
    grind
  | missed => exact absurd hpos (lt_irrefl 0)
  | adopted _ _ _ _ hsaved => exact .inr (handoff_matchSavedSession hspill hsaved)
  | @hit ref1 ids1 d _ hs hi _ hlen htail =>
    obtain rfl := some_inj.1 (hs.symm.trans href)
    obtain rfl := some_inj.1 (hi.symm.trans hids)
    have hsame := SamePin.freeTail htail
    refine .inl ⟨hsame.session, hlen, ?_⟩
    show (d.slotIndices ref1 _).length = _
    rw [length_slotIndices ((freeTail_reqPoolIdx htail _).trans hidx), hsame.width]

end

/-! ## The health check and the next request -/

/-- The turn that was just looked up can be resumed, from the given device state. -/
def Joint.Resumes [DecidableEq Key] (cfg : SessionConfig Key) (j : Joint Key Rows Ring) (t : Turn)
    (live : Live Rows Ring) : Prop :=
  ∃ session store, csa2PrepareExtend cfg j.cache.session j.store j.live
    t.req.prefixIndices.length = .ok (session, store, live)

/-- The pin of `j'` is that of `j`, and whatever the next request is, it is answered in `j'` as it
is in `j` and can be resumed if it can be there; from the same device state, if that of `j'` is that
of `j`. -/
structure Undisturbed [DecidableEq Key] (cfg : SessionConfig Key) (j j' : Joint Key Rows Ring) :
    Prop where
  slot : j'.cache.slot = j.cache.slot
  lastIds : j'.cache.lastIds = j.cache.lastIds
  lastExtraKey : j'.cache.lastExtraKey = j.cache.lastExtraKey
  lastCacheSalt : j'.cache.lastCacheSalt = j.cache.lastCacheSalt
  cuts : j'.cache.cuts = j.cache.cuts
  row : ∀ ref, j.cache.slot = some ref → SameRow ref j.cache j'.cache
  next : ∀ req limit k t, j.stepRequest cfg req limit = some k → k.turn = some t →
    ∃ k' t', j'.stepRequest cfg req limit = some k' ∧ k'.turn = some t' ∧
      t'.req.prefixIndices.length = t.req.prefixIndices.length ∧
      ∀ live, k.Resumes cfg t live →
        ∃ live', k'.Resumes cfg t' live' ∧ (j'.live = j.live → live' = live)

/-- A check with prompt `h` repeats what is there: the pinned ids `P` are as many as those of the
prompt, they were stopped at their end only, and the worker is resident at that length.  The pin
holds its row and no hand-off waits. -/
structure Repeats (j : Joint Key Rows Ring) (P h : List Token) : Prop where
  row : ∀ ref, j.cache.slot = some ref → (j.cache.heap ref).reqPoolIdx ≠ none
  spill : j.cache.session.spill = none
  load : j.cache.session.load = none
  pin : P.length = h.length
  cuts : j.cache.cuts = [h.length]
  resident : j.store.residentEnd = h.length
  tip : j.store.tipLen ≤ h.length

lemma noteCut_only {n : Nat} {previous : Option (List Token)} {ids : List Token} (hn : 0 < n)
    (hle : n ≤ ids.length) : noteCut [n] previous ids (some n) = [n] := by
  have hkept : ∀ p, (([n].filter p).filter fun cut => cut != n) = [] := by
    intro p
    cases h : p n <;> simp [h]
  simp only [noteCut, getD_some]
  rw [if_neg (by omega), hkept]
  rfl

variable {fwd : Forward Rows Ring} {j j' : Joint Key Rows Ring} {ref idx : Nat}
  {P h sampled : List Token}

lemma AfterCheck.sameRow (hafter : AfterCheck fwd h sampled j j') (hrows : j.Rowed)
    (hidx : (j.cache.heap ref).reqPoolIdx = some idx) : SameRow ref j.cache j'.cache := by
  have hlt : ref < j.cache.nextKv := hrows.cache.fresh ref (by rw [hidx]; simp)
  exact ⟨hafter.width, hafter.pageSize, hafter.heap ref hlt, fun i hi =>
    hafter.rows i (hrows.cache.rows.used ref i hi)⟩

/-- A request that arrives finds the same pin, as long as the cuts are the same. -/
lemma AfterCheck.alike (hafter : AfterCheck fwd h sampled j j') (hrows : j.Rowed)
    (hrows' : j'.Rowed) (hidx : (j.cache.heap ref).reqPoolIdx = some idx)
    (hspill : j.cache.session.spill = none) (hload : j.cache.session.load = none)
    (hcuts : j'.cache.cuts = j.cache.cuts) (req : Req) :
    Alike ref (arrive j.cache req).1 (arrive j'.cache req).1 := by
  have hrow := hafter.sameRow hrows hidx
  have hidx' : (j'.cache.heap ref).reqPoolIdx = some idx := by rw [hrow.record, hidx]
  have hlt : ref ≠ j.cache.nextKv :=
    ne_of_lt (hrows.cache.fresh ref (by rw [hidx]; simp))
  have hlt' : ref ≠ j'.cache.nextKv :=
    ne_of_lt (hrows'.cache.fresh ref (by rw [hidx']; simp))
  have hheap : (arrive j.cache req).1.heap ref = j.cache.heap ref :=
    heap_setKv_of_ne _ _ hlt
  have hheap' : (arrive j'.cache req).1.heap ref = j'.cache.heap ref :=
    heap_setKv_of_ne _ _ hlt'
  refine ⟨⟨hafter.width, hafter.pageSize, ?_, fun i hi => ?_⟩, hafter.slot, hafter.lastIds,
    hafter.lastExtraKey, hafter.lastCacheSalt, hcuts, hafter.session.none hspill hload,
    hafter.pages⟩
  · rw [hheap, hheap', hrow.record]
  · exact hrow.row i (hheap ▸ hi)

section
variable [DecidableEq Key] {cfg : SessionConfig Key}

lemma stepRequest_lookup {req : Req} {limit : Option Nat} {k : Joint Key Rows Ring} :
    j.stepRequest cfg req limit = some k ↔
      (j.turn = none ∧ req.originInputIds.length ≤ j.cache.pool.maxContextLen) ∧
      ∃ c r res, (arrive j.cache req).1.matchPrefix cfg
          (keyOf (arrive j.cache req).2 limit) (arrive j.cache req).2 =
            .ok (c, r, res) ∧
        k = { j with cache := c, turn := some ⟨r, .ready⟩ } := by
  rw [stepRequest]
  constructor
  · intro h
    split at h
    · cases h
    rename_i hguard
    rw [not_or, Bool.not_eq_true, isSome_eq_false_iff, isNone_iff_eq_none, not_lt] at hguard
    dsimp only at h
    split at h
    · cases h
    rename_i c r res hok
    exact ⟨hguard, c, r, res, hok, (some_inj.1 h).symm⟩
  · grind

lemma resumes_repeated {c₁ c1' : Cache Key Rows Ring} {key : RadixKey} {req r₁ r1' : Req}
    {res : Option MatchResult} {live : Live Rows Ring}
    (hrep : Repeats j P h) (hafter : AfterCheck fwd h sampled j j')
    (hslot : j.cache.slot = some ref) (hids : j.cache.lastIds = some P)
    (hidx : ((arrive j.cache req).1.heap ref).reqPoolIdx = some idx)
    (hok : (arrive j.cache req).1.matchPrefix cfg key (arrive j.cache req).2 =
      .ok (c₁, r₁, res)) (hsess : c1'.session = c₁.session)
    (hlen : r1'.prefixIndices.length = r₁.prefixIndices.length)
    (hres : Joint.Resumes cfg { j with cache := c₁, turn := some ⟨r₁, .ready⟩ } ⟨r₁, .ready⟩ live) :
    ∃ live', Joint.Resumes cfg { j' with cache := c1', turn := some ⟨r1', .ready⟩ } ⟨r1', .ready⟩
      live' ∧ (j'.live = j.live → live' = live) := by
  obtain ⟨session, store, hres⟩ := hres
  obtain ⟨rings, hstore⟩ := hafter.store
  suffices hgoal : ∃ session store live', csa2PrepareExtend cfg c₁.session j'.store j'.live
      r₁.prefixIndices.length = .ok (session, store, live') ∧ (j'.live = j.live → live' = live) by
    obtain ⟨session', store', live', h', hsame⟩ := hgoal
    refine ⟨live', ⟨session', store', ?_⟩, hsame⟩
    show csa2PrepareExtend cfg c1'.session j'.store j'.live r1'.prefixIndices.length = _
    rw [hsess, hlen, h']
  replace hres : csa2PrepareExtend cfg c₁.session j.store j.live r₁.prefixIndices.length =
    .ok (session, store, live) := hres
  rcases Nat.eq_zero_or_pos r₁.prefixIndices.length with hzero | hpos
  · rw [hzero] at hres ⊢
    obtain ⟨session1, h1⟩ := prepare_zero cfg c₁.session j.store j.live
    obtain ⟨session2, h2⟩ := prepare_zero cfg c₁.session j'.store j'.live
    rw [h1, Except.ok.injEq, Prod.mk.injEq, Prod.mk.injEq] at hres
    exact ⟨session2, empty, j'.live, h2, fun h => h.trans hres.2.2⟩
  rcases lookup_pinned (c := (arrive j.cache req).1) hslot hids hidx hrep.spill hok hpos with
    ⟨hsame, hhit, hat⟩ | ⟨saved, hl, hs⟩
  · -- A hit is at the length of the pin, where both workers are resident.
    have hn : r₁.prefixIndices.length = h.length := by
      rw [hat]
      have hfit : min h.length (arrive j.cache req).1.pool.maxContextLen = h.length :=
        min_eq_left hafter.fits
      rcases hitLen_spec hhit with ⟨-, hall, -⟩ | hcut
      · rw [hall, hrep.pin, hfit]
      · have hmem : _ ∈ j.cache.cuts := hcut.1
        rw [hrep.cuts, mem_singleton] at hmem
        rw [hmem, hfit]
    replace hsame : c₁.session = j.cache.session := hsame
    rw [hsame, hn] at hres ⊢
    rw [prepare_of_no_handoff hrep.spill hrep.load hafter.pos] at hres ⊢
    obtain ⟨s1, h1⟩ := resumeAt_resident Key j.live hrep.resident hrep.tip
    obtain ⟨s2, h2⟩ := (resumeAt_checked Key rings j'.live h.length hafter.pos).1 rfl
    rw [h1] at hres
    rw [hstore, h2]
    cases hres
    exact ⟨_, _, _, rfl, id⟩
  · exact prepare_of_load hl hs hpos hres j'.store j'.live

/-- **Health checks and the pinned conversation.**  In every state a run reaches with a pin, a
complete health check that repeats what is there disturbs neither the pin nor the next request.
After any other the worker still resumes at the length of the check's prompt and nowhere else, and
from the device state the check left: a pin of another length, and every other cut, is lost. -/
theorem health_check_undisturbed {j₀ : Joint Key Rows Ring}
    {ok : Joint Key Rows Ring → Event → Prop} (hinit : j₀.Initial) (hfree : j₀.RowsFree)
    (hrun : Run (step cfg fwd) ok j₀ j) (hslot : j.cache.slot = some ref)
    (hids : j.cache.lastIds = some P) {req : Req} {limit : Option Nat}
    {sampled output : List Token} {finishedLen : Option Nat} (hreq : req.isHealthCheck = true)
    (hcheck : runList (step cfg fwd) j (healthCheck req limit sampled output finishedLen) =
      some j') :
    (Repeats j P req.originInputIds → Undisturbed cfg j j') ∧ ∀ start, 0 < start →
        ((∃ out, csa2PrepareExtend cfg j'.cache.session j'.store j'.live start = .ok out) ↔
          start = req.originInputIds.length) ∧
        ∀ session store live, csa2PrepareExtend cfg j'.cache.session j'.store j'.live start =
          .ok (session, store, live) → live = fwd j.live 0 req.originInputIds := by
  have hafter := afterCheck hreq hcheck
  have hrows : j.Rowed := rowed_run hinit hfree hrun
  have hrows' : j'.Rowed := runList_invariant (I := Joint.Rowed)
    (fun _ _ _ h hstep => h.step hstep) hrows hcheck
  refine ⟨fun hrep => ?_, fun start hstart => ?_⟩
  · obtain ⟨idx, hidx⟩ := ne_none_iff_exists'.1 (hrep.row ref hslot)
    have hcuts : j'.cache.cuts = j.cache.cuts := by
      rw [hafter.cuts, hrep.cuts]
      exact noteCut_only hafter.pos (by simp)
    refine ⟨hafter.slot, hafter.lastIds, hafter.lastExtraKey, hafter.lastCacheSalt, hcuts,
      fun ref' h => ?_, fun req2 limit2 k t hstep ht => ?_⟩
    · grind [hafter.sameRow]
    · obtain ⟨⟨-, hfits⟩, c₁, r₁, res, hok, rfl⟩ := stepRequest_lookup.1 hstep
      cases ht
      have halike := hafter.alike hrows hrows' hidx hrep.spill hrep.load hcuts req2
      have hidx2 : ((arrive j.cache req2).1.heap ref).reqPoolIdx = some idx := by
        rw [← hidx]
        exact congrArg _ (heap_setKv_of_ne _ _
          (ne_of_lt (hrows.cache.fresh ref (by rw [hidx]; simp))))
      obtain ⟨c1', r1', res', hok', hsess, hlen⟩ := alike_matchPrefix
        (c := (arrive j.cache req2).1) hslot hids hidx2 halike hok
        (show (arrive j'.cache req2).2.rid = _ from rfl)
      exact ⟨_, _, stepRequest_lookup.2 ⟨⟨hafter.turn, hafter.width ▸ hfits⟩, _, _, _, hok', rfl⟩,
        rfl, hlen, fun live => resumes_repeated hrep hafter hslot hids hidx2 hok hsess hlen⟩
  · obtain ⟨rings, hstore⟩ := hafter.store
    have hchecked := resumeAt_checked Key rings j'.live start hafter.pos
    rw [prepare_of_no_handoff hafter.session.spill hafter.session.load hstart, hstore]
    by_cases hn : start = req.originInputIds.length
    · obtain ⟨s, hs⟩ := hchecked.1 hn
      rw [hs]
      refine ⟨⟨fun _ => hn, fun _ => ⟨_, rfl⟩⟩, fun session store live h => ?_⟩
      cases h
      exact hafter.live
    · grind [Except.map]

end

/-- A health check for some ids. -/
def sampleCheck (ids : List Token) : Req :=
  { sampleReq ids with rid := some "HEALTH_CHECK_1".toList }

/-- One turn that prefills some ids and finishes with an output. -/
def pinTurn (ids output : List Token) : List Event :=
  [.request (sampleReq ids) none, .extend ids.length, .unfinished output, .finish output none]

lemma rowsFree_sampleStart (rows : Nat) : (sampleStart rows).RowsFree :=
  ⟨fun _ => rfl, nodup_range'⟩

/-- A check with the server's prompt, when that is the pinned sequence. -/
theorem health_check_repeats_pin :
    ∃ j j', Run (step (sampleConfig true) sampleForward) (fun _ _ => True) (sampleStart 2) j ∧
      runList (step (sampleConfig true) sampleForward) j
        (healthCheck (sampleCheck [0]) none [7] [7] none) = some j' ∧
      j.cache.lastIds = some [0] ∧ j'.live = j.live ∧ Undisturbed (sampleConfig true) j j' := by
  obtain ⟨j, hrun, hj⟩ := Run.exists_of_any (step (sampleConfig true) sampleForward)
    (fun _ _ => True) (sampleStart 2) (pinTurn [0] [])
    (fun j => (j.cache.slot = some 0 ∧ j.cache.lastIds = some [0] ∧
        (j.cache.heap 0).reqPoolIdx ≠ none ∧ j.cache.session.spill = none ∧
        j.cache.session.load = none ∧ j.cache.cuts = [1] ∧ j.store.residentEnd = 1 ∧
        j.store.tipLen ≤ 1) ∧
      ∃ j' ∈ runList (step (sampleConfig true) sampleForward) j
        (healthCheck (sampleCheck [0]) none [7] [7] none), j'.live = j.live)
    (by decide +kernel) (by decide +kernel)
  obtain ⟨⟨hslot, hids, hrow, hspill, hload, hcuts, hend, htip⟩, j', hcheck, hlive⟩ := hj
  refine ⟨j, j', hrun, hcheck, hids, hlive, (health_check_undisturbed (initial_sampleStart 2)
    (rowsFree_sampleStart 2) hrun hslot hids (by decide) hcheck).1
    ⟨fun ref h => ?_, hspill, hload, rfl, hcuts, hend, htip⟩⟩
  obtain rfl := some_inj.1 (hslot.symm.trans h)
  exact hrow

/-- A check of another length: the lookup of a request that continues the pin is answered as before,
and its resume, which succeeded, raises. -/
theorem pin_lost_to_health_check :
    (runList (step (sampleConfig false) sampleForward) (sampleStart 2)
        (pinTurn [0, 1, 2] [] ++ [.request (sampleReq [0, 1, 2, 3]) none])).map (fun j =>
        (j.cache.cuts, j.turn.map fun t => t.req.prefixIndices.length,
          faultOf (csa2PrepareExtend (sampleConfig false) j.cache.session j.store j.live 3))) =
      some ([3], some 3, none) ∧
      (runList (step (sampleConfig false) sampleForward) (sampleStart 2)
          (pinTurn [0, 1, 2] [] ++ healthCheck (sampleCheck [5]) none [7] [7] none ++
            [.request (sampleReq [0, 1, 2, 3]) none])).map (fun j =>
        (j.cache.cuts, j.turn.map fun t => t.req.prefixIndices.length,
          faultOf (csa2PrepareExtend (sampleConfig false) j.cache.session j.store j.live 3))) =
      some ([1], some 3, some (.startsPastResident 3 1)) := by
  constructor
  · decide +kernel
  · decide +kernel

end Sglang.Sticky
