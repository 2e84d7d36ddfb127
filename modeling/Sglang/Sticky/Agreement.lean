import Sglang.Sticky.Resume

/-!
# The two parties agree on what can be resumed

The scheduler lists cuts, the worker files stops.  Both keep the newest 32, but they filter
differently: `_note_cut` compares a running request with the ids of the *last* pin, so the
scheduler forgets stops the worker still files, and the worker makes room for those by forgetting
stops the scheduler still lists.  A lookup can then return a length the worker has dropped
(`restore_missed_after_long_prefill`).

`Admissible` is the condition under which this does not happen: whenever the worker files a stop,
it has room for it or the oldest one it forgets is not listed any more, and a normal finish pins no
more ids than are resident.  `match_resumes_at_recorded_stop` is the agreement under it, over every
run: a lookup that returns a prefix can be resumed, and the rings that are live afterwards are those
of the stop recorded for these tokens.
-/

namespace Sglang.Sticky
open List Store Lib Option Joint SessionState

variable {Key Rows Ring : Type}

/-! ## Admissible events -/

/-- The requests a run is made of: no health checks, a matched request runs or is aborted through
the cache, and verify has reached the ids a normal finish pins. -/
def WellRun (j : Joint Key Rows Ring) : Event → Prop
  | .request req _ => req.isHealthCheck = false
  | .leave => ∀ t ∈ j.turn, t.req.prefixIndices = []
  | .finish output finishedLen =>
    ∀ t ∈ j.turn, (finishedIds t.req output finishedLen).length ≤ j.store.residentEnd
  | _ => True

/-- A stop is filed only when none is forgotten that the scheduler lists.  A prefill chunk files the
tip it finds, a verify step only one that a prefill left. -/
def Admissible (j : Joint Key Rows Ring) (e : Event) : Prop :=
  WellRun j e ∧ match e with
    | .extend _ => j.store.RoomOrForgotten j.cache.cuts
    | .verify _ _ => j.store.tipFromExtend = true → j.store.RoomOrForgotten j.cache.cuts
    | _ => True

instance (j : Joint Key Rows Ring) (e : Event) : Decidable (WellRun j e) := by
  cases e <;> dsimp only [WellRun] <;> infer_instance

instance (j : Joint Key Rows Ring) (e : Event) : Decidable (Admissible j e) := by
  cases e <;> dsimp only [Admissible] <;> infer_instance

/-! ## The invariant -/

/-- The running request may resume at `L`: nowhere, or at a cut of a pin that is ok. -/
structure Resumes (s : Store Ring) (stops : Stops Ring) (cuts : List Nat) (o : List Token)
    (L : Nat) : Prop where
  le : L ≤ o.length
  cuts_le : ∀ c ∈ cuts, c ≤ L
  pin : 0 < L → ∃ ids, PinOk s stops ids cuts ∧ L ∈ cuts ∧ o.take L = ids.take L
  none : L = 0 → cuts = []

/-- How far the two parties have come. -/
inductive Situation (c : Cache Key Rows Ring) (s : Store Ring) (stops : Stops Ring) :
    Option Turn → Prop
  /-- Nothing runs and nothing is pinned. -/
  | unpinned (hpin : Unpinned c) : Situation c s stops none
  /-- Nothing runs, and the pin can be resumed. -/
  | pinned (ids : List Token) (hslot : c.slot ≠ none) (hids : c.lastIds = some ids)
      (hpin : PinOk s stops ids c.cuts) (htop : ids.length ∈ c.cuts) : Situation c s stops none
  /-- A request was looked up. -/
  | fresh (t : Turn) (hphase : t.phase = .ready) (hend : t.req.extendEnd = none)
      (hres : Resumes s stops c.cuts t.req.originInputIds t.req.prefixIndices.length)
      (hmiss : t.req.prefixIndices = [] → Unpinned c) : Situation c s stops (some t)
  /-- A chunk ended at `e`. -/
  | stopped (t : Turn) (e : Nat) (hphase : t.phase ≠ .decoding) (hend : t.req.extendEnd = some e)
      (hle : e ≤ t.req.originInputIds.length)
      (hpin : PinOk s stops (t.req.originInputIds.take e) c.cuts)
      (htip : TipStands s stops (t.req.originInputIds.take e)) (hlen : s.tipLen = e)
      (hfrom : s.tipFromExtend = true)
      (hready : t.phase = .ready → t.req.prefixIndices.length = e ∧ e ∈ c.cuts) :
      Situation c s stops (some t)
  /-- Verify steps follow the last chunk, which ended at `e`. -/
  | decoding (t : Turn) (e : Nat) (hphase : t.phase = .decoding)
      (hend : t.req.extendEnd = some e) (hle : e ≤ t.req.originInputIds.length)
      (hpin : PinOk s stops (t.req.originInputIds.take e) c.cuts)
      (hfiled : Filed s stops (t.req.originInputIds.take e)) (hkeys : ∀ k ∈ s.keys, k ≤ e)
      (hfrom : s.tipFromExtend = false) : Situation c s stops (some t)

/-- **The invariant of the two parties.** -/
structure Agree (j : Joint Key Rows Ring) : Prop where
  worker : WorkerOk j.store j.live.rings
  spill : j.cache.session.spill = none
  load : j.cache.session.load = none
  cap : j.cache.cuts.length ≤ boundaryKeep
  served : ∀ t, j.turn = some t → t.req.isHealthCheck = false ∧
    t.req.originInputIds.length ≤ j.cache.pool.maxContextLen
  situation : Situation j.cache j.store j.stops j.turn

lemma agree_of_initial {j : Joint Key Rows Ring} (h : j.Initial) : Agree j where
  worker := h.store ▸ workerOk_empty _
  spill := h.spill
  load := h.load
  cap := by rw [h.cuts]; simp
  served := fun t ht => by rw [h.turn] at ht; cases ht
  situation := h.turn ▸ .unpinned ⟨h.slot, h.lastIds, h.cuts⟩

variable {s : Store Ring} {stops : Stops Ring} {c : Cache Key Rows Ring}

lemma Situation.samePin {c' : Cache Key Rows Ring} {t : Option Turn} (h : Situation c s stops t)
    (hs : SamePin c c') : Situation c' s stops t := by
  cases h with
  | unpinned hpin => exact .unpinned (hs.unpinned hpin)
  | pinned ids hslot hids hpin htop =>
    exact .pinned ids (hs.slot ▸ hslot) (hs.lastIds ▸ hids) (hs.cuts ▸ hpin) (hs.cuts ▸ htop)
  | fresh t hphase hend hres hmiss =>
    exact .fresh t hphase hend (hs.cuts ▸ hres) fun h => hs.unpinned (hmiss h)
  | stopped t e hphase hend hle hpin htip hlen hfrom hready =>
    exact .stopped t e hphase hend hle (hs.cuts ▸ hpin) htip hlen hfrom (hs.cuts ▸ hready)
  | decoding t e hphase hend hle hpin hfiled hkeys hfrom =>
    exact .decoding t e hphase hend hle (hs.cuts ▸ hpin) hfiled hkeys hfrom

variable {o : List Token} {n : Nat}

lemma length_take_of_le (h : n ≤ o.length) : (o.take n).length = n := by
  rw [length_take, min_eq_left h]

variable {cuts : List Nat} {e : Nat}

/-- A stopped request resumes where it stopped. -/
lemma resumes_of_stopped (hle : e ≤ o.length) (hpin : PinOk s stops (o.take e) cuts)
    (hmem : e ∈ cuts) : Resumes s stops cuts o e := by
  have hlen := length_take_of_le hle
  refine ⟨hle, fun c hc => hlen ▸ (hpin.cut c hc).2.1, fun _ => ?_, fun h0 => ?_⟩
  · exact ⟨o.take e, hpin, hmem, by rw [take_take, min_self]⟩
  · have := (hpin.cut e hmem).1
    omega

/-! ## The cap on the cuts -/

lemma length_evictRecent_le (l : List Nat) : (evictRecent l boundaryKeep).length ≤ boundaryKeep := by
  grind [evictRecent, boundaryKeep]

lemma length_noteCut_le (h : cuts.length ≤ boundaryKeep) (previous : Option (List Token))
    (ids : List Token) (stop : Option Nat) :
    (noteCut cuts previous ids stop).length ≤ boundaryKeep := by
  grind [noteCut, length_evictRecent_le]

lemma mem_abortedCuts_pinLen (h : cuts.length ≤ boundaryKeep) (previous : Option (List Token))
    (ids : List Token) (pinLen : Nat) : pinLen ∈ abortedCuts cuts previous ids pinLen := by
  grind [abortedCuts, evictRecent]

/-! ## Lookups -/

variable {ids : List Token}

/-- What a hit on an ok pin can resume. -/
lemma resumes_of_hit {key : RadixKey} (hpin : PinOk s stops ids c.cuts)
    (htop : ids.length ∈ c.cuts) (hpos : 0 < (c.hitLen key ids).1) :
    Resumes s stops (if (c.hitLen key ids).1 < ids.length then
      c.cuts.filter fun cut => decide (cut ≤ (c.hitLen key ids).1) else c.cuts) key.tokenIds
      (c.hitLen key ids).1 := by
  have hspec := hitLen_spec hpos
  generalize (c.hitLen key ids).1 = L at hpos hspec ⊢
  rcases hspec with ⟨-, rfl, htake⟩ | ⟨hmem, -, hlt, hle, htake⟩
  · have hraw : ids.length ≤ key.rawTokenIds.length := by
      grind
    obtain ⟨heq, hle⟩ := take_rawTokenIds hraw
    rw [if_neg (lt_irrefl _)]
    refine ⟨hle, fun c hc => (hpin.cut c hc).2.1, fun _ => ⟨ids, hpin, htop, ?_⟩, by omega⟩
    rw [← heq, htake, take_length]
  · obtain ⟨heq, hle⟩ := take_rawTokenIds hle
    rw [if_pos hlt]
    refine ⟨hle, fun c hc => by simpa using (mem_filter.1 hc).2, fun _ => ?_, by omega⟩
    refine ⟨ids, hpin.mono fun c hc => .inl (mem_filter.1 hc).1, ?_, heq ▸ htake⟩
    exact mem_filter.2 ⟨hmem, by simp⟩

variable {fwd : Forward Rows Ring} {j j' : Joint Key Rows Ring}

section
variable [DecidableEq Key] {cfg : SessionConfig Key} {req : Req} {limit : Option Nat}

lemma ready_of_stepRequest (h : j.stepRequest cfg req limit = some j') {t : Turn}
    (ht : j'.turn = some t) : t.phase = .ready := by
  grind [stepRequest]

lemma agree_request (hcfg : cfg.sessionsEnabled = false) (hj : Agree j)
    (hreq : req.isHealthCheck = false) (h : j.stepRequest cfg req limit = some j') : Agree j' := by
  obtain ⟨hturn, hwidth, c', req', res, hmatch, rfl⟩ := stepRequest_some h
  have hsame : SamePin j.cache (arrive j.cache req).1 := ⟨rfl, rfl, rfl, rfl, rfl, rfl, rfl⟩
  have hrest := hturn ▸ hj.situation
  have hpin : (arrive j.cache req).1.slot = none ∨
      (arrive j.cache req).1.lastIds = none → Unpinned (arrive j.cache req).1 := by
    intro hno
    cases hrest with
    | unpinned hpin => exact hsame.unpinned hpin
    | pinned ids hslot hids _ _ =>
      rcases hno with hno | hno
      · exact absurd hno hslot
      · cases hids.symm.trans hno
  have hnohc : (arrive j.cache req).2.isHealthCheck = false := hreq
  have hreq' := sameReq_matchPrefix hmatch
  have hres := matchPrefix_spec hcfg hnohc hpin hmatch
  have hhc : req'.isHealthCheck = false := by
    simp_all [Req.isHealthCheck, hreq'.rid]
  have ho : req'.originInputIds = req.originInputIds := hreq'.originInputIds
  have hend : req'.extendEnd = none := hreq'.extendEnd
  rcases hres with ⟨hu, hsess, hw, hidx⟩ | ⟨slot, ids, hslot, hids, hpos, hhit⟩
  · refine ⟨hj.worker, ?_, ?_, ?_, ?_, ?_⟩
    · exact hsess ▸ hj.spill
    · exact hsess ▸ hj.load
    · simp [hu.cuts]
    · rintro t ⟨⟩
      exact ⟨hhc, by show _ ≤ c'.pool.maxContextLen; rw [hw, ho]; exact hwidth⟩
    · refine .fresh _ rfl hend ⟨?_, ?_, ?_, ?_⟩ fun _ => hu <;> simp [hidx, hu.cuts]
  · cases hrest with
    | unpinned hpin =>
      cases hids.symm.trans hpin.lastIds
    | pinned ids' _ hids' hpin htop =>
      obtain rfl : ids' = ids := some_inj.1 (hids'.symm.trans hids)
      have hr := resumes_of_hit (c := (arrive j.cache req).1) hpin htop hpos
      rw [← hhit.cuts] at hr
      have hlen : req'.prefixIndices.length =
          ((arrive j.cache req).1.hitLen (keyOf (arrive j.cache req).2 limit) ids').1 := by
        rw [hhit.indices, Nat.min_eq_left]
        exact le_trans hr.le hwidth
      refine ⟨hj.worker, ?_, ?_, ?_, ?_, ?_⟩
      · exact hhit.session ▸ hj.spill
      · exact hhit.session ▸ hj.load
      · show c'.cuts.length ≤ _
        rw [hhit.cuts]
        split
        · exact le_trans (length_filter_le _ _) hj.cap
        · exact hj.cap
      · rintro t ⟨⟩
        exact ⟨hhc, by show _ ≤ c'.pool.maxContextLen; rw [hhit.width, ho]; exact hwidth⟩
      · refine .fresh _ rfl hend ?_ fun hnil => ?_
        · show Resumes _ _ c'.cuts req'.originInputIds req'.prefixIndices.length
          rw [hlen, ho]
          exact hr
        · grind

/-! ## Prefill chunks -/

variable {session : SessionState Key Rows Ring} {live : Live Rows Ring}

lemma csa2PrepareExtend_of_no_handoff {s : Store Ring} {start : Nat}
    (hspill : session.spill = none) (hload : session.load = none) :
    csa2PrepareExtend cfg session s live start = if start = 0 then .ok (session, Store.empty, live)
      else (resumeAt s live start).map fun r => (session, r.1, r.2) := by
  obtain ⟨spill, load, metas, blobs⟩ := session
  subst hspill hload
  simp only [csa2PrepareExtend, takeHandoff]
  split
  · rfl
  · show (resumeAt s live start >>= fun r => pure (_, r.1, r.2)) = _
    cases (resumeAt s live start : Except (BoundaryFault Key) _) <;> rfl

/-- **Preparing a chunk**: it does not raise, and what the scheduler lists up to the prefix is
filed. -/
theorem csa2PrepareExtend_spec (cfg : SessionConfig Key) {s : Store Ring} {stops : Stops Ring}
    {cuts : List Nat} {o : List Token} {L : Nat} (hspill : session.spill = none)
    (hload : session.load = none) (hok : WorkerOk s live.rings) (hres : Resumes s stops cuts o L)
    (hroom : s.RoomOrForgotten cuts) :
    ∃ s' live', csa2PrepareExtend cfg session s live L = .ok (session, s', live') ∧
      (0 < L → ∃ snap, stops.lookup (o.take L) = some snap ∧
        live'.rings = snap.copyInto live.rings) ∧
      s'.WF ∧ (∀ k ∈ s'.keys, 0 < k ∧ k ≤ L) ∧ ∀ c ∈ cuts, 0 < c ∧ Filed s' stops (o.take c) := by
  rw [csa2PrepareExtend_of_no_handoff hspill hload]
  by_cases h0 : L = 0
  · refine ⟨Store.empty, live, if_pos h0, fun h => absurd h0 (by omega), Store.wf_empty, ?_, ?_⟩
    · simp [Store.keys, Store.empty]
    · rw [hres.none h0]
      simp
  · obtain ⟨ids, hpin, hmem, htake⟩ := hres.pin (by omega)
    obtain ⟨s', live', snap, hr, hl, hrings, hwf, hkeys, hfiled⟩ :=
      resumeAt_spec Key hpin hok hroom hmem
    refine ⟨s', live', by rw [if_neg h0, hr]; rfl, fun _ => ⟨snap, htake ▸ hl, hrings⟩, hwf, hkeys,
      fun c hc => ⟨(hpin.cut c hc).1, ?_⟩⟩
    have hcL := hres.cuts_le c hc
    have heq : o.take c = ids.take c := by
      rw [← min_eq_left hcL, ← take_take, htake, take_take]
    exact heq ▸ hfiled c hc hcL

lemma agree_extend {t : Turn} {stop : Nat} (hj : Agree j) (ht : j.turn = some t)
    (hroom : j.store.RoomOrForgotten j.cache.cuts) (h : j.stepExtend cfg fwd t stop = some j') :
    Agree j' := by
  obtain ⟨hphase, hstart, hstop, c', session, store, live, hgrow, hprep', rfl⟩ := stepExtend_some h
  have hsame := SamePin.growRow hgrow
  have hres : Resumes j.store j.stops j.cache.cuts t.req.originInputIds
      t.req.prefixIndices.length := by
    have hs := ht ▸ hj.situation
    cases hs with
    | fresh _ _ _ hres _ => exact hres
    | stopped _ e _ _ hle hpin _ _ _ hready =>
      grind [resumes_of_stopped]
    | decoding _ _ hdec _ _ _ _ _ _ => cases hphase.symm.trans hdec
  generalize t.req.prefixIndices.length = L at hprep' hres hstart ⊢
  have hspill : c'.session.spill = none := hsame.session ▸ hj.spill
  have hload : c'.session.load = none := hsame.session ▸ hj.load
  obtain ⟨s', live', hprep, -, hwf, hkeys, hfiled⟩ :=
    csa2PrepareExtend_spec cfg hspill hload hj.worker hres hroom
  obtain ⟨rfl, rfl, rfl⟩ : _ ∧ s' = store ∧ live' = live := by
    simpa using hprep.symm.trans hprep'
  have hkeys' : ∀ k ∈ s'.keys, 0 < k ∧ k < stop := fun k hk =>
    ⟨(hkeys k hk).1, lt_of_le_of_lt (hkeys k hk).2 hstart⟩
  have hlen := length_take_of_le hstop
  have htip : TipStands (csa2FinishForward s'
      (fwd live' L ((t.req.originInputIds.take stop).drop L)) stop true)
      ((t.req.originInputIds.take stop,
        (fwd live' L ((t.req.originInputIds.take stop).drop L)).rings) :: j.stops)
      (t.req.originInputIds.take stop) := by
    refine ⟨⟨_, rfl, lookup_cons_self⟩, le_of_eq hlen, fun hlt => ?_, fun k hk => ?_⟩
    · exact absurd hlt (by rw [hlen]; exact lt_irrefl stop)
    · rw [hlen]
      exact (hkeys' k hk).2
  refine ⟨?_, hspill, hload, ?_, ?_, ?_⟩
  · exact workerOk_backupTip hwf hkeys' _ true
  · simpa [hsame.cuts] using hj.cap
  · rintro t' ⟨⟩
    obtain ⟨hhc, hw⟩ := hj.served t ht
    exact ⟨hhc, hsame.width ▸ hw⟩
  · refine .stopped _ stop (by simp) rfl hstop ⟨?_, .inr htip, fun c hc => ?_⟩ htip rfl rfl
      (fun hr => (by cases hr))
    · grind
    · have hc : c ∈ j.cache.cuts := hsame.cuts ▸ hc
      have hcL := hres.cuts_le c hc
      have hlt : c < stop := lt_of_le_of_lt hcL hstart
      obtain ⟨hpos, hf⟩ := hfiled c hc
      refine ⟨hpos, by rw [hlen]; omega, fun _ => ?_⟩
      rw [take_take, min_eq_left (le_of_lt hlt)]
      refine Filed.cons hf ?_
      show (t.req.originInputIds.take c).length ≠ (t.req.originInputIds.take stop).length
      rw [hlen, length_take_of_le (by omega)]
      omega

end

variable {t : Turn}

lemma agree_unfinished {sampled : List Token} (hj : Agree j) (ht : j.turn = some t)
    (h : j.stepUnfinished t sampled = some j') : Agree j' := by
  obtain ⟨hphase, c', req', hcall, rfl⟩ := stepUnfinished_some h
  obtain ⟨hhc, hw⟩ := hj.served t ht
  have hs := ht ▸ hj.situation
  cases hs with
  | fresh _ hr _ _ _ => cases hphase.symm.trans hr
  | decoding _ _ hdec _ _ _ _ _ _ => cases hphase.symm.trans hdec
  | stopped _ e _ hend hle hpin htip hlen hfrom _ =>
    have htake := length_take_of_le hle
    have hepos : 0 < e := htake ▸ length_pos_of_ne_nil hpin.ne_nil
    have hone : t.req.originInputIds ≠ [] := by
      grind
    obtain ⟨rfl, hsr, -, hidx⟩ := cacheUnfinishedReq_spec hcall hone hend
    have ho : req'.originInputIds = t.req.originInputIds := hsr.originInputIds
    refine ⟨hj.worker, hj.spill, hj.load, length_noteCut_le hj.cap _ _ _, ?_, ?_⟩
    · simp_all [Req.isHealthCheck, hsr.rid]
    · refine .stopped _ e (by simp) (hsr.extendEnd.trans hend) (by rw [ho]; exact hle) ?_
        (by rw [ho]; exact htip) hlen hfrom fun _ => ⟨?_, ?_⟩
      · show PinOk _ _ (req'.originInputIds.take e) _
        rw [ho]
        refine hpin.mono fun c hc => ?_
        rcases mem_noteCut hc with ⟨hc, -⟩ | ⟨hc, -, -⟩
        · exact .inl hc
        · exact .inr (by rw [htake]; exact hc)
      · grind
      · exact stop_mem_noteCut _ _ _ (some e) hepos (by
          show e ≤ (t.req.originInputIds ++ (t.req.outputIds ++ sampled)).length
          rw [length_append]
          omega)

/-! ## Verify steps -/

variable {commit : List Token}

lemma commitVerify_of_length_eq_zero {live : Live Rows Ring} (h : commit.length = 0) :
    commitVerify fwd live n commit = live := by
  rw [commitVerify, if_pos (length_eq_zero_iff.1 h)]

lemma agree_verify (hj : Agree j) (ht : j.turn = some t)
    (hroom : j.store.tipFromExtend = true → j.store.RoomOrForgotten j.cache.cuts)
    (h : j.stepVerify fwd t n commit = some j') : Agree j' := by
  rw [stepVerify] at h
  split at h
  · cases h
  rename_i hguard
  simp only [not_or, not_lt] at hguard
  obtain ⟨hphase, hext, hn⟩ := hguard
  rw [some_inj] at h
  subst h
  rw [hj.worker.resident] at hn
  have hsame : n + commit.length = j.store.tipLen →
      (commitVerify fwd j.live n commit).rings = j.live.rings := fun heq => by
    rw [commitVerify_of_length_eq_zero (by omega)]
  have hserved : ∀ t', some { t with phase := Phase.decoding } = some t' →
      t'.req.isHealthCheck = false ∧ t'.req.originInputIds.length ≤ j.cache.pool.maxContextLen := by
    simpa using hj.served t ht
  have hs := ht ▸ hj.situation
  cases hs with
  | fresh _ _ hend _ _ => exact absurd hend hext
  | stopped _ e _ hend hle hpin htip hlen hfrom hready =>
    obtain ⟨-, hmem⟩ := hready (by
      cases hp : t.phase with
      | ready => rfl
      | extended => exact absurd hp hphase
      | decoding => contradiction)
    have htake := length_take_of_le hle
    have hdec : csa2PrepareDecode j.store = j.store.freezeTip := by
      rw [csa2PrepareDecode, if_pos hfrom]
    rw [hdec]
    have hf := htip.freezeTip hj.worker.wf hpin.ne_nil (htake.trans hlen.symm)
    refine ⟨?_, hj.spill, hj.load, hj.cap, hserved, ?_⟩
    · refine hj.worker.freezeTip.backupTip ?_ (fun heq => ?_) false
      · grind [Store.freezeTip_tipLen]
      · simp_all
    · refine .decoding _ e rfl hend hle ⟨hpin.ne_nil, .inl hf, fun c hc => ?_⟩ hf (fun k hk => ?_)
        rfl
      · obtain ⟨hpos, hcle, hcf⟩ := hpin.cut c hc
        refine ⟨hpos, hcle, fun hlt => ?_⟩
        refine (hcf hlt).freezeTip hj.worker.wf (hroom hfrom) ?_
        rwa [length_take_of_le hcle]
      · have hk := (hj.worker.freezeTip.keys_le k hk).2
        rw [Store.freezeTip_tipLen, hlen] at hk
        exact hk
  | decoding _ e _ hend hle hpin hf hkeys hfrom =>
    have hdec : csa2PrepareDecode j.store = j.store := by
      rw [csa2PrepareDecode, if_neg (by simp [hfrom])]
    rw [hdec]
    refine ⟨hj.worker.backupTip (by omega) hsame false, hj.spill, hj.load, hj.cap, hserved, ?_⟩
    exact .decoding _ e rfl hend hle ⟨hpin.ne_nil, .inl hf, hpin.cut⟩ hf hkeys rfl

/-! ## Finishing and stopping -/

/-- Pinning what a started request has finished. -/
lemma pinOk_finish {cuts' : List Nat} {rings : Paired Ring} (hok : WorkerOk s rings)
    (hle : e ≤ o.length) (hpin : PinOk s stops (o.take e) cuts) (hids : ids.take e = o.take e)
    (hlen : e ≤ ids.length) (htop : e = ids.length ∨ (Filed s stops (o.take e) ∧
      (∀ k ∈ s.keys, k ≤ e) ∧ s.tipFromExtend = false ∧ ids.length ≤ s.tipLen))
    (hcuts : ∀ c ∈ cuts', c ∈ cuts ∨ c = ids.length) :
    PinOk s (if ids.length = e then stops else (ids, rings) :: stops) ids cuts' := by
  have htake := length_take_of_le hle
  by_cases heq : ids.length = e
  · grind [hpin.mono]
  rw [if_neg heq]
  have hlt : e < ids.length := by omega
  obtain ⟨hf, hkeys, hfrom, hres⟩ := htop.resolve_left (by omega)
  have hlift : ∀ c ≤ e, Filed s stops (o.take c) →
      Filed s ((ids, rings) :: stops) (ids.take c) := by
    intro c hc hf
    have heqc : ids.take c = o.take c := by
      rw [← min_eq_left hc, ← take_take, hids, take_take]
    rw [heqc]
    refine hf.cons ?_
    rw [length_take_of_le (by omega)]
    omega
  have htip : s.tip = some rings := by
    grind [hok.tip]
  refine ⟨fun hnil => ?_, .inr ⟨⟨rings, htip, lookup_cons_self⟩, hres, fun _ => hfrom,
    fun k hk => lt_of_le_of_lt (hkeys k hk) hlt⟩, fun c hc => ?_⟩
  · grind
  · rcases hcuts c hc with hc | rfl
    · obtain ⟨hpos, hcle, hcf⟩ := hpin.cut c hc
      rw [htake] at hcle hcf
      refine ⟨hpos, by omega, fun _ => ?_⟩
      rcases lt_or_eq_of_le hcle with hce | rfl
      · grind
      · exact hlift c hcle hf
    · exact ⟨by omega, le_refl _, fun h => absurd h (lt_irrefl _)⟩

variable {output : List Token}

lemma agree_finish {finishedLen : Option Nat} (hj : Agree j) (ht : j.turn = some t)
    (htip : (finishedIds t.req output finishedLen).length ≤ j.store.residentEnd)
    (h : j.stepFinish t output finishedLen = some j') : Agree j' := by
  obtain ⟨hext, c', req', hcall, rfl⟩ := stepFinish_some h
  obtain ⟨hhc, hw⟩ := hj.served t ht
  have hpins := releaseKvCache_finish hcall hhc rfl
  have hpins : Pins j.cache c' (finishedIds t.req output finishedLen)
    (noteCut j.cache.cuts j.cache.lastIds (finishedIds t.req output finishedLen) none) := hpins
  rw [hj.worker.resident] at htip
  have hfin : ∀ e ≤ t.req.originInputIds.length, (finishedIds t.req output finishedLen).take e =
      t.req.originInputIds.take e ∧ e ≤ (finishedIds t.req output finishedLen).length := by
    grind [finishedIds]
  generalize finishedIds t.req output finishedLen = ids at htip hpins hfin
  have hcuts : ∀ c ∈ c'.cuts, c ∈ j.cache.cuts ∨ c = ids.length := by
    intro c hc
    rw [hpins.cuts] at hc
    rcases mem_noteCut hc with ⟨hc, -⟩ | ⟨hc, -, -⟩
    · exact .inl hc
    · exact .inr hc
  have hmem : ids ≠ [] → ids.length ∈ c'.cuts := by
    grind [hpins.cuts, stop_mem_noteCut, length_pos_of_ne_nil]
  have hsit : ∀ e, t.req.extendEnd = some e →
      PinOk j.store (if ids.length = e then j.stops else (ids, j.live.rings) :: j.stops) ids
        c'.cuts →
      Situation c' j.store (if some ids.length = t.req.extendEnd then j.stops
        else (ids, j.live.rings) :: j.stops) none := by
    intro e hend hpin
    rw [hend]
    simp only [Option.some.injEq]
    exact .pinned ids hpins.slot hpins.lastIds hpin (hmem hpin.ne_nil)
  refine ⟨hj.worker, ?_, ?_, ?_, fun t' ht' => (by cases ht'), ?_⟩
  · exact hpins.session ▸ hj.spill
  · exact hpins.session ▸ hj.load
  · simpa [hpins.cuts] using length_noteCut_le hj.cap _ _ _
  · have hs := ht ▸ hj.situation
    cases hs with
    | fresh _ _ hend _ _ => exact absurd hend hext
    | stopped _ e _ hend hle hpin _ hlen _ _ =>
      obtain ⟨htk, hel⟩ := hfin e hle
      exact hsit e hend (pinOk_finish hj.worker hle hpin htk hel (.inl (by omega)) hcuts)
    | decoding _ e _ hend hle hpin hf hkeys hfrom =>
      obtain ⟨htk, hel⟩ := hfin e hle
      exact hsit e hend (pinOk_finish hj.worker hle hpin htk hel
        (.inr ⟨hf, hkeys, hfrom, htip⟩) hcuts)

lemma agree_abort (hj : Agree j) (ht : j.turn = some t) (h : j.stepAbort t output = some j') :
    Agree j' := by
  obtain ⟨c', req', hcall, rfl⟩ := stepAbort_some h
  obtain ⟨hhc, hw⟩ := hj.served t ht
  rcases releaseKvCache_abort hcall hhc rfl with
    ⟨hu, hsess, -⟩ | ⟨limit, pinLen, hlen, hpos, hlimit, hpins⟩
  · refine ⟨hj.worker, ?_, ?_, ?_, fun t' ht' => (by cases ht'), .unpinned hu⟩
    · exact hsess ▸ hj.spill
    · exact hsess ▸ hj.load
    · simp [hu.cuts]
  · have hspec := abortedPrefixLen_spec j.cache.cuts limit t.req.extendEnd
    rw [← show pinLen = abortedPrefixLen j.cache.cuts limit t.req.extendEnd from hlen] at hspec
    obtain ⟨-, hle, hwhere⟩ := hspec.resolve_left (by omega)
    -- The pin the abort cuts back: the one matched, or the prefill so far.
    have hbase : ∃ ids cuts, PinOk j.store j.stops ids cuts ∧ pinLen ∈ cuts ∧
        (∀ c ∈ j.cache.cuts, c ∈ cuts) ∧
        (t.req.originInputIds ++ output).take pinLen = ids.take pinLen := by
      have hs := ht ▸ hj.situation
      have hstarted : ∀ e, t.req.extendEnd = some e → e ≤ t.req.originInputIds.length →
          PinOk j.store j.stops (t.req.originInputIds.take e) j.cache.cuts →
          ∃ ids cuts, PinOk j.store j.stops ids cuts ∧ pinLen ∈ cuts ∧
            (∀ c ∈ j.cache.cuts, c ∈ cuts) ∧
            (t.req.originInputIds ++ output).take pinLen = ids.take pinLen := by
        intro e hend heo hpin
        have hpe : pinLen ≤ e := by
          grind [hpin.cut]
        refine ⟨_, e :: j.cache.cuts, hpin.mono fun c hc => ?_, ?_,
          fun c hc => mem_cons_of_mem _ hc, ?_⟩
        · grind
        · grind
        · rw [take_append_of_le_length (by omega), take_take, min_eq_left hpe]
      cases hs with
      | fresh _ _ hend hres _ =>
        have hm : pinLen ∈ j.cache.cuts :=
          hwhere.resolve_right fun h => (by cases hend.symm.trans h)
        have hpL := hres.cuts_le _ hm
        obtain ⟨ids, hpin, -, htake⟩ := hres.pin (by omega)
        refine ⟨ids, _, hpin, hm, fun c hc => hc, ?_⟩
        have := hres.le
        rw [take_append_of_le_length (by omega), ← min_eq_left hpL, ← take_take, htake, take_take]
      | stopped _ e _ hend heo hpin _ _ _ _ => exact hstarted e hend heo hpin
      | decoding _ e _ hend heo hpin _ _ _ => exact hstarted e hend heo hpin
    obtain ⟨ids, cuts, hpin, hmem, hsub, htake⟩ := hbase
    have hids : c'.lastIds = some (ids.take pinLen) := htake ▸ hpins.lastIds
    refine ⟨hj.worker, ?_, ?_, ?_, fun t' ht' => (by cases ht'), ?_⟩
    · exact hpins.session ▸ hj.spill
    · exact hpins.session ▸ hj.load
    · show c'.cuts.length ≤ _
      rw [hpins.cuts]
      exact length_evictRecent_le _
    · refine .pinned (ids.take pinLen) hpins.slot hids (hpin.take hmem fun c hc => ?_) ?_
      · rw [hpins.cuts] at hc
        rcases mem_abortedCuts hc with hc | ⟨hc, -, hcn, -⟩
        · exact .inl hc
        · exact .inr ⟨hsub c hc, hcn⟩
      · rw [length_take_of_le (hpin.cut pinLen hmem).2.1]
        rw [hpins.cuts]
        exact mem_abortedCuts_pinLen hj.cap _ _ _

/-! ## Runs -/

variable [DecidableEq Key] {cfg : SessionConfig Key}

/-- **Every admissible step keeps the two parties in agreement.** -/
theorem agree_step (hcfg : cfg.sessionsEnabled = false) {e : Event} (hj : Agree j)
    (hok : Admissible j e) (h : j.step cfg fwd e = some j') : Agree j' := by
  obtain ⟨hwell, hroom⟩ := hok
  cases e with
  | request req limit => exact agree_request hcfg hj hwell h
  | leave =>
    obtain ⟨t, ht, h⟩ := bind_eq_some_iff.1 h
    split at h
    · rename_i hend
      rw [some_inj] at h
      subst h
      refine ⟨hj.worker, hj.spill, hj.load, hj.cap, fun t' ht' => (by cases ht'), ?_⟩
      have hs := ht ▸ hj.situation
      cases hs with
      | fresh _ _ _ _ hmiss => exact .unpinned (hmiss (hwell t ht))
      | stopped _ _ _ hend' _ _ _ _ _ _ => cases hend.symm.trans hend'
      | decoding _ _ _ hend' _ _ _ _ _ => cases hend.symm.trans hend'
    · cases h
  | reserve seqLen committedLen =>
    obtain ⟨t, ht, h⟩ := bind_eq_some_iff.1 h
    obtain ⟨c, hgrow, rfl⟩ := map_eq_some_iff.1 h
    have hs := SamePin.growRow hgrow
    refine ⟨hj.worker, hs.session ▸ hj.spill, hs.session ▸ hj.load, hs.cuts ▸ hj.cap,
      fun t ht => ?_, hj.situation.samePin hs⟩
    obtain ⟨hhc, hw⟩ := hj.served t ht
    exact ⟨hhc, hs.width ▸ hw⟩
  | extend stop =>
    obtain ⟨t, ht, h⟩ := bind_eq_some_iff.1 h
    exact agree_extend hj ht hroom h
  | unfinished sampled =>
    obtain ⟨t, ht, h⟩ := bind_eq_some_iff.1 h
    exact agree_unfinished hj ht h
  | verify n commit =>
    obtain ⟨t, ht, h⟩ := bind_eq_some_iff.1 h
    exact agree_verify hj ht hroom h
  | finish output finishedLen =>
    obtain ⟨t, ht, h⟩ := bind_eq_some_iff.1 h
    exact agree_finish hj ht (hwell t ht) h
  | abort output =>
    obtain ⟨t, ht, h⟩ := bind_eq_some_iff.1 h
    exact agree_abort hj ht h

/-- The two parties agree in every state an admissible run reaches. -/
lemma agree_run (hcfg : cfg.sessionsEnabled = false) {j0 : Joint Key Rows Ring}
    (h0 : j0.Initial) (hrun : Run (step cfg fwd) Admissible j0 j) : Agree j :=
  hrun.invariant (agree_of_initial h0) fun _ _ _ hj hok h => agree_step hcfg hj hok h

/-- **A match can be resumed.**  In every run whose steps are admissible, when a lookup returns a
prefix of length `L > 0`, preparing the extend at `L` does not raise — if the worker has room to
file its tip, or forgets a stop that is not listed — and the rings it leaves are those of the stop
recorded for the first `L` ids of the request. -/
theorem match_resumes_at_recorded_stop (hcfg : cfg.sessionsEnabled = false)
    {j₀ : Joint Key Rows Ring} (h₀ : j₀.Initial)
    (hrun : Run (Joint.step cfg fwd) Admissible j₀ j) {req : Req} {limit : Option Nat}
    (hreq : req.isHealthCheck = false) (hstep : j.step cfg fwd (.request req limit) = some j')
    {t : Turn} (ht : j'.turn = some t) (hL : 0 < t.req.prefixIndices.length)
    (hroom : j'.store.RoomOrForgotten j'.cache.cuts) :
    ∃ session store live snap,
      csa2PrepareExtend cfg j'.cache.session j'.store j'.live t.req.prefixIndices.length =
        .ok (session, store, live) ∧
      j'.stops.lookup (t.req.originInputIds.take t.req.prefixIndices.length) = some snap ∧
      live.rings = snap.copyInto j'.live.rings := by
  have hj := agree_run hcfg h₀ (hrun.next (e := .request req limit) ⟨hreq, trivial⟩ hstep)
  have hs := ht ▸ hj.situation
  have hres : Resumes j'.store j'.stops j'.cache.cuts t.req.originInputIds
      t.req.prefixIndices.length := by
    cases hs with
    | fresh _ _ _ hres _ => exact hres
    | stopped _ e hphase _ hle hpin _ _ _ hready =>
      obtain ⟨hlen, hmem⟩ := hready (ready_of_stepRequest hstep ht)
      rw [hlen]
      exact resumes_of_stopped hle hpin hmem
    | decoding _ _ hdec _ _ _ _ _ _ =>
      cases (ready_of_stepRequest hstep ht).symm.trans hdec
  obtain ⟨store, live, hprep, hsnap, -⟩ :=
    csa2PrepareExtend_spec cfg hj.spill hj.load hj.worker hres hroom
  obtain ⟨snap, hl, hrings⟩ := hsnap hL
  exact ⟨_, store, live, snap, hprep, hl, hrings⟩

/-- A prompt of two ids in two chunks, and one verified id. -/
def shortTurn : List Event :=
  [.request (sampleReq [0, 1]) none, .extend 1, .unfinished [], .extend 2, .unfinished [2],
    .reserve 4 2, .verify 2 [2], .finish [2] none]

theorem match_resumes_after_shortTurn :
    ∃ j j' t, Run (Joint.step (sampleConfig false) sampleForward) Admissible (sampleStart 1) j ∧
      Joint.step (sampleConfig false) sampleForward j
        (.request (sampleReq [0, 1, 2, 3]) none) = some j' ∧
      j'.turn = some t ∧ t.req.prefixIndices.length = 3 ∧
      ∃ session store live snap,
        csa2PrepareExtend (sampleConfig false) j'.cache.session j'.store j'.live
          t.req.prefixIndices.length = .ok (session, store, live) ∧
        j'.stops.lookup (t.req.originInputIds.take t.req.prefixIndices.length) = some snap ∧
        live.rings = snap.copyInto j'.live.rings := by
  have hex := Run.exists_of_any (step (sampleConfig false) sampleForward) Admissible
    (sampleStart 1) shortTurn
    (fun j => ∃ j' ∈ step (sampleConfig false) sampleForward j
      (.request (sampleReq [0, 1, 2, 3]) none), j'.store.RoomOrForgotten j'.cache.cuts ∧
        ∃ t ∈ j'.turn, t.req.prefixIndices.length = 3)
    (by decide +kernel) (by decide +kernel)
  obtain ⟨j, hrun, j', hstep, hroom, t, ht, hlen⟩ := hex
  exact ⟨j, j', t, hrun, hstep, ht, hlen, match_resumes_at_recorded_stop rfl
    (initial_sampleStart 1) hrun (by decide +kernel) hstep ht (by omega) hroom⟩

/-- A longer prompt that continues `shortTurn`, in 34 chunks. -/
def longTurn : List Event :=
  .request (sampleReq (countTo 37)) none ::
    (range' 4 34).flatMap (fun stop => [.extend stop, .unfinished []]) ++
      [.reserve 38 37, .verify 37 [37], .finish [37] none]

/-- After a long prefill the scheduler still lists the stop at 2, which the worker has dropped to
make room for stops of the same prefill: the next request is given the prefix `[0, 1]`, and
preparing its extend raises. -/
theorem restore_missed_after_long_prefill :
    okList (Joint.step (sampleConfig false) sampleForward) WellRun (sampleStart 1)
        (shortTurn ++ longTurn) ∧
      (runList (Joint.step (sampleConfig false) sampleForward) (sampleStart 1)
          (shortTurn ++ longTurn ++ [.request (sampleReq [0, 1, 99]) none])).map (fun j =>
        (j.turn.map fun t => t.req.prefixIndices.length,
          faultOf (csa2PrepareExtend (sampleConfig false) j.cache.session j.store j.live 2))) =
      some (some 2, some (.restoreMissed 2 38 (range' 7 32))) := by
  decide +kernel

end Sglang.Sticky
