import Sglang.Sticky.Joint
import Sglang.Sticky.Pin

/-!
# Which recorded stops a conversation remembers

A conversation is a series of requests, each of which the pin answers.  `_note_cut` compares the
cuts with the ids of the *last* pin: a chunk stop of a later turn that lies beyond that pin is
dropped at the next note, at the latest when the turn finishes (`stop_forgotten`).  While every
chunk stop of a turn lies within the pin the turn found (`Within`), rewinds and the cap of 32 are
the only ways a recorded stop leaves the cuts (`recorded_stops_remembered`).
-/

namespace Sglang.Sticky
open Lib List Option

variable {Key Rows Ring : Type}

/-- The stops recorded after the last record of `p`, in a log with the newest first. -/
def newer (log : List (List Token)) (p : List Token) : List (List Token) :=
  log.takeWhile fun q => decide (q ≠ p)

/-- Fewer than 32 different stops were recorded after `p`. -/
def Recent (log : List (List Token)) (p : List Token) : Prop :=
  (newer log p).dedup.length < boundaryKeep

/-- A run of the two parties with the stops the current conversation recorded. -/
structure Logged (Key Rows Ring : Type) where
  joint : Joint Key Rows Ring
  /-- The stops recorded so far, the newest first. -/
  log : List (List Token)
  /-- Those no rewind has dropped. -/
  live : List (List Token)

/-- The reused length and the pinned ids, when the pin answers a lookup. -/
def Cache.answers (c : Cache Key Rows Ring) (key : RadixKey) : Option (Nat × List Token) :=
  match c.slot, c.lastIds with
  | some ref, some ids =>
    if (c.heap ref).holdsKv && decide (0 < (c.hitLen key ids).1) then
      some ((c.hitLen key ids).1, ids) else none
  | _, _ => none

/-- The tokens of the stop that `cache_unfinished_req` records. -/
def Turn.stopIds (t : Turn) : List Token := t.req.originInputIds.take (t.req.extendEnd.getD 0)

namespace Logged

/-- The start of a conversation. -/
def start (j : Joint Key Rows Ring) : Logged Key Rows Ring := ⟨j, [], []⟩

def record (l : Logged Key Rows Ring) (j : Joint Key Rows Ring) (p : List Token) :
    Logged Key Rows Ring :=
  ⟨j, p :: l.log, p :: l.live⟩

section
variable [DecidableEq Key]

/-- What a lookup does to the records: a rewind drops the longer stops, and a lookup that the pin
does not answer starts another conversation. -/
def look (l : Logged Key Rows Ring) (j : Joint Key Rows Ring) (req : Req) (limit : Option Nat) :
    Logged Key Rows Ring :=
  let (c, req) := Joint.arrive l.joint.cache req
  match c.answers (Joint.keyOf req limit) with
  | none => start j
  | some (n, ids) => { l with
      joint := j
      live := if n < ids.length then l.live.filter fun p => decide (p.length ≤ n) else l.live }

/-- One event of a conversation; health checks are not part of one. -/
def step (cfg : SessionConfig Key) (fwd : Forward Rows Ring) (l : Logged Key Rows Ring)
    (e : Event) : Option (Logged Key Rows Ring) :=
  (l.joint.step cfg fwd e).bind fun j => match e with
    | .request req limit => if req.isHealthCheck then none else some (l.look j req limit)
    | .unfinished _ => l.joint.turn.map fun t => l.record j t.stopIds
    | .finish output finishedLen => l.joint.turn.map fun t =>
        l.record j (finishedIds t.req output finishedLen)
    | .abort _ => some (start j)
    | _ => some { l with joint := j }

end

/-- **The stops are remembered**: between two turns every recorded stop that is a beginning of the
pinned ids, was not dropped by a rewind and is among the newest 32 is a cut, and a request that
shares its tokens reuses at least as many. -/
def Remembered (l : Logged Key Rows Ring) : Prop :=
  l.joint.turn = none → ∀ ids ∈ l.joint.cache.lastIds, ∀ p ∈ l.live, p <+: ids →
    Recent l.log p → p.length ∈ l.joint.cache.cuts ∧
      ∀ key : RadixKey, key.extraKey = l.joint.cache.lastExtraKey →
        orNone key.cacheSalt = l.joint.cache.lastCacheSalt → p <+: key.rawTokenIds →
        p.length ≤ (l.joint.cache.hitLen key ids).1

/-- A chunk stop is recorded only within the pinned ids. -/
def Within (l : Logged Key Rows Ring) : Event → Prop
  | .unfinished _ => ∀ t ∈ l.joint.turn, ∀ ids ∈ l.joint.cache.lastIds, t.stopIds <+: ids
  | _ => True

instance (l : Logged Key Rows Ring) (e : Event) : Decidable (l.Within e) :=
  match e with
  | .unfinished _ => inferInstanceAs
      (Decidable (∀ t ∈ l.joint.turn, ∀ ids ∈ l.joint.cache.lastIds, t.stopIds <+: ids))
  | .request _ _ | .leave | .reserve _ _ | .extend _ | .verify _ _ | .finish _ _ | .abort _ =>
    isTrue trivial

end Logged

/-! ## Where a stop stands in the cuts -/

/-- The cuts list `p`, and what stands after it was recorded later. -/
def Standing (cuts : List Nat) (log : List (List Token)) (p : List Token) : Prop :=
  ∃ older later, cuts = older ++ p.length :: later ∧ later.Nodup ∧
    ∀ c ∈ later, ∃ q ∈ newer log p, q.length = c

section
variable {cuts : List Nat} {log : List (List Token)} {p s : List Token}

lemma newer_cons (h : s ≠ p) : newer (s :: log) p = s :: newer log p := by simp [newer, h]

lemma Recent.of_cons (hne : s ≠ p) (h : Recent (s :: log) p) : Recent log p := by
  rw [Recent, newer_cons hne] at h
  refine lt_of_le_of_lt ?_ h
  by_cases hs : s ∈ newer log p
  · rw [dedup_cons_of_mem hs]
  · rw [dedup_cons_of_notMem hs]
    exact Nat.le_succ _

lemma Standing.mem (h : Standing cuts log p) : p.length ∈ cuts := by
  obtain ⟨older, later, rfl, -⟩ := h
  simp

lemma Standing.filter {f : Nat → Bool} (h : Standing cuts log p) (hf : f p.length = true) :
    Standing (cuts.filter f) log p := by
  obtain ⟨older, later, rfl, hnd, hlater⟩ := h
  refine ⟨older.filter f, later.filter f, by simp [hf], hnd.filter _, fun c hc => ?_⟩
  exact hlater c (mem_of_mem_filter hc)

/-- Of the cuts after a recent stop there are fewer than 32. -/
lemma length_lt_of_recent {later : List Nat} (h : Recent log p) (hnd : later.Nodup)
    (hlater : ∀ c ∈ later, ∃ q ∈ newer log p, q.length = c) : later.length < boundaryKeep := by
  have hsub : later ⊆ (newer log p).dedup.map List.length := fun c hc => by
    obtain ⟨q, hq, rfl⟩ := hlater c hc
    exact List.mem_map_of_mem (mem_dedup.2 hq)
  have hle := (subperm_of_subset hnd hsub).length_le
  rw [length_map] at hle
  exact lt_of_le_of_lt hle h

lemma Standing.evictRecent (h : Standing cuts log p) (hrec : Recent log p) :
    Standing (evictRecent cuts boundaryKeep) log p := by
  obtain ⟨older, later, rfl, hnd, hlater⟩ := h
  have hlt := length_lt_of_recent hrec hnd hlater
  unfold evictRecent
  split
  · exact ⟨older, later, rfl, hnd, hlater⟩
  refine ⟨older.drop ((older ++ p.length :: later).length - boundaryKeep), later, ?_, hnd, hlater⟩
  rw [drop_append_of_le_length]
  simp only [length_append, length_cons]
  omega

/-- **One note**: a stop is recorded, and a recent one that agrees with the pin stays listed. -/
theorem Standing.noteCut {previous : Option (List Token)} {ids : List Token} {stop : Option Nat}
    (hpos : 0 < stop.getD ids.length) (hle : stop.getD ids.length ≤ ids.length)
    (hp : p <+: ids) (h : p ≠ ids.take (stop.getD ids.length) →
      (∀ prev ∈ previous, p <+: prev) ∧ (Recent log p → Standing cuts log p))
    (hrec : Recent (ids.take (stop.getD ids.length) :: log) p) :
    Standing (noteCut cuts previous ids stop) (ids.take (stop.getD ids.length) :: log) p := by
  unfold Sticky.noteCut
  generalize stop.getD ids.length = len at *
  rw [if_neg (by omega)]
  refine Standing.evictRecent ?_ hrec
  have hlen : (ids.take len).length = len := by rw [length_take]; omega
  by_cases heq : p = ids.take len
  · subst heq
    exact ⟨_, [], by rw [hlen], nodup_nil, by simp⟩
  have hne : p.length ≠ len := fun hl => heq (by rw [← hl]; exact prefix_iff_eq_take.1 hp)
  obtain ⟨hprev, hlisted⟩ := h heq
  have hkept := (hlisted (hrec.of_cons (Ne.symm heq))).filter
    (f := fun length => previous.all fun prev =>
      decide (length ≤ ids.length) && ids.take length == prev.take length) <| by
    rw [Option.all_eq_true]
    intro prev hmem
    rw [← prefix_iff_eq_take.1 hp, ← prefix_iff_eq_take.1 (hprev prev hmem)]
    simp [hp.length_le]
  obtain ⟨older, later, hcuts, hnd, hlater⟩ :=
    hkept.filter (f := fun cut => cut != len) (by simpa using hne)
  refine ⟨older, later ++ [len], by rw [hcuts]; simp, ?_, fun c hc => ?_⟩
  · have hno : len ∉ later := fun hin => by
      have : len ∈ older ++ p.length :: later := by simp [hin]
      rw [← hcuts] at this
      simp at this
    exact nodup_append'.2 ⟨hnd, nodup_singleton _, by simpa using hno⟩
  · rw [newer_cons (Ne.symm heq)]
    rcases mem_append.1 hc with hc | hc
    · obtain ⟨q, hq, hql⟩ := hlater c hc
      exact ⟨q, mem_cons_of_mem _ hq, hql⟩
    · exact ⟨_, mem_cons_self, by rw [hlen, mem_singleton.1 hc]⟩

end

/-! ## What a listed stop is worth to a lookup -/

lemma le_hitLen {c : Cache Key Rows Ring} {key : RadixKey} {ids p : List Token}
    (hmem : p.length ∈ c.cuts) (hextra : key.extraKey = c.lastExtraKey)
    (hsalt : orNone key.cacheSalt = c.lastCacheSalt) (hids : p <+: ids)
    (hkey : p <+: key.rawTokenIds) : p.length ≤ (c.hitLen key ids).1 := by
  simp only [Cache.hitLen, hextra, hsalt, BEq.rfl, Bool.and_self, Bool.true_and, if_true]
  split
  · exact hids.length_le
  rename_i hexact
  rcases Nat.eq_zero_or_pos p.length with h0 | hpos
  · omega
  have htake : key.rawTokenIds.take p.length = ids.take p.length := by
    rw [← prefix_iff_eq_take.1 hkey, ← prefix_iff_eq_take.1 hids]
  refine (longestCut_best c.cuts key.rawTokenIds ids).2 _ ⟨hmem, hpos,
    lt_of_le_of_ne hids.length_le fun heq => hexact ?_, hkey.length_le, htake⟩
  rw [heq, take_length] at htake
  exact isExactContinuation_iff.2 ⟨ne_nil_of_length_pos (heq ▸ hpos), htake⟩

/-! ## The invariant -/

/-- A turn of a conversation, with its last chunk inside the prompt. -/
structure Turn.Sane (t : Turn) : Prop where
  served : t.req.isHealthCheck = false
  chunk : ∀ e ∈ t.req.extendEnd, 0 < e ∧ e ≤ t.req.originInputIds.length

namespace Logged

structure Kept (l : Logged Key Rows Ring) : Prop where
  sane : ∀ t ∈ l.joint.turn, t.Sane
  turn : ∀ p ∈ l.live, ∀ t ∈ l.joint.turn, p <+: t.req.originInputIds
  pin : ∀ p ∈ l.live, ∀ ids ∈ l.joint.cache.lastIds, p <+: ids
  listed : ∀ p ∈ l.live, Recent l.log p → Standing l.joint.cache.cuts l.log p

lemma Kept.start {j : Joint Key Rows Ring} (h : ∀ t ∈ j.turn, t.Sane) : (start j).Kept :=
  ⟨h, fun _ hp => absurd hp not_mem_nil, fun _ hp => absurd hp not_mem_nil,
    fun _ hp => absurd hp not_mem_nil⟩

lemma Kept.remembered {l : Logged Key Rows Ring} (h : l.Kept) : l.Remembered :=
  fun _ _ _ p hp hids hrec =>
    have hmem := (h.listed p hp hrec).mem
    ⟨hmem, fun _ hextra hsalt hkey => le_hitLen hmem hextra hsalt hids hkey⟩

variable {l l' : Logged Key Rows Ring} {j : Joint Key Rows Ring}

/-- Steps that leave the pin alone and keep the prompt of the turn. -/
lemma Kept.frame (h : l.Kept) (hids : j.cache.lastIds = l.joint.cache.lastIds)
    (hcuts : j.cache.cuts = l.joint.cache.cuts)
    (hturn : ∀ t' ∈ j.turn, t'.Sane ∧
      ∃ t ∈ l.joint.turn, t'.req.originInputIds = t.req.originInputIds) :
    ({ l with joint := j } : Logged Key Rows Ring).Kept where
  sane := fun t ht => (hturn t ht).1
  turn := fun p hp t' ht' => by
    obtain ⟨-, t, ht, ho⟩ := hturn t' ht'
    exact ho ▸ h.turn p hp t ht
  pin := fun p hp ids hm => h.pin p hp ids (hids ▸ hm)
  listed := fun p hp hrec => hcuts ▸ h.listed p hp hrec

/-- Steps that record a stop. -/
lemma Kept.record (h : l.Kept) (ids : List Token) (stop : Option Nat)
    (hpos : 0 < stop.getD ids.length) (hle : stop.getD ids.length ≤ ids.length)
    (hids : ∀ p ∈ l.live, p <+: ids)
    (hcuts : j.cache.cuts = noteCut l.joint.cache.cuts l.joint.cache.lastIds ids stop)
    (hturn : ∀ t ∈ j.turn, t.Sane ∧
      ∀ p ∈ ids.take (stop.getD ids.length) :: l.live, p <+: t.req.originInputIds)
    (hpin : ∀ prev ∈ j.cache.lastIds, ∀ p ∈ ids.take (stop.getD ids.length) :: l.live, p <+: prev) :
    (l.record j (ids.take (stop.getD ids.length))).Kept where
  sane := fun t ht => (hturn t ht).1
  turn := fun p hp t ht => (hturn t ht).2 p hp
  pin := fun p hp prev hprev => hpin prev hprev p hp
  listed := fun p hp hrec => by
    have hall : ∀ p ∈ ids.take (stop.getD ids.length) :: l.live, p <+: ids :=
      forall_mem_cons.2 ⟨ take_prefix _ _, hids⟩
    show Standing j.cache.cuts _ p
    rw [hcuts]
    refine Standing.noteCut hpos hle (hall p hp) (fun hne => ?_) hrec
    have hp : p ∈ l.live := (mem_cons.1 hp).resolve_left hne
    exact ⟨h.pin p hp, h.listed p hp⟩

/-! ## One step -/

lemma Kept.unfinished (h : l.Kept) {t : Turn} {sampled : List Token}
    (ht : l.joint.turn = some t) (hok : l.Within (.unfinished sampled))
    (hs : l.joint.stepUnfinished t sampled = some j) : (l.record j t.stopIds).Kept := by
  have hsane := h.sane t ht
  obtain ⟨-, c, req, hcache, rfl⟩ := Joint.stepUnfinished_some hs
  obtain ⟨e, hend⟩ : ∃ e, t.req.extendEnd = some e := by
    cases hend : t.req.extendEnd with
    | some e => exact ⟨e, rfl⟩
    | none => simp [Cache.cacheUnfinishedReq, hend] at hcache
  obtain ⟨hpos, hle⟩ := hsane.chunk e hend
  obtain ⟨rfl, hreq, -⟩ := cacheUnfinishedReq_spec hcache
    (ne_nil_of_length_pos (by show 0 < t.req.originInputIds.length; omega)) hend
  have hstop : t.stopIds = (t.req.originInputIds ++ (t.req.outputIds ++ sampled)).take e := by
    rw [Turn.stopIds, hend, getD_some, take_append_of_le_length hle]
  rw [hstop]
  refine h.record _ (some e) hpos ?_
    (fun p hp => (h.turn p hp t ht).trans (prefix_append _ _)) rfl (fun t' ht' => ?_)
    fun prev hprev => forall_mem_cons.2
      ⟨hstop ▸ hok t ht prev hprev, fun p hp => h.pin p hp prev hprev⟩
  · simp only [getD_some, length_append]
    omega
  · cases ht'
    rw [hreq.originInputIds, getD_some, ← hstop]
    refine ⟨⟨?_, ?_⟩, forall_mem_cons.2 ⟨ take_prefix _ _, fun p hp => h.turn p hp t ht⟩⟩
    · rw [Req.isHealthCheck, hreq.rid]
      exact hsane.served
    · rw [hreq.extendEnd, hreq.originInputIds]
      exact hsane.chunk

lemma Kept.finish (h : l.Kept) {t : Turn} {output : List Token} {finishedLen : Option Nat}
    (ht : l.joint.turn = some t) (hs : l.joint.stepFinish t output finishedLen = some j) :
    (l.record j (finishedIds t.req output finishedLen)).Kept := by
  have hsane := h.sane t ht
  obtain ⟨hend, c, req, hrel, rfl⟩ := Joint.stepFinish_some hs
  have hpins := releaseKvCache_finish hrel hsane.served rfl
  have hpre : t.req.originInputIds <+: finishedIds t.req output finishedLen := prefix_append _ _
  obtain ⟨e, hend⟩ := ne_none_iff_exists'.1 hend
  have hpos : 0 < (finishedIds t.req output finishedLen).length := by
    have := hsane.chunk e hend
    have := hpre.length_le
    omega
  have hids : ∀ p ∈ l.live, p <+: finishedIds t.req output finishedLen :=
    fun p hp => (h.turn p hp t ht).trans hpre
  rw [← take_length (l := finishedIds t.req output finishedLen)]
  refine h.record _ none hpos (le_refl _) hids hpins.cuts (fun t' ht' => ?_)
    fun prev hprev => ?_
  · cases ht'
  · obtain rfl := some_inj.1 (hpins.lastIds.symm.trans hprev)
    exact forall_mem_cons.2 ⟨ take_prefix _ _, hids⟩

section
variable [DecidableEq Key] {cfg : SessionConfig Key} {c c' : Cache Key Rows Ring}
  {req req' : Req} {res : Option MatchResult} {key : RadixKey}

/-- A lookup that the pin answers keeps the pinned ids and the cuts up to the reused length. -/
lemma matchPrefix_of_answers {n : Nat} {ids : List Token} (hreq : req.isHealthCheck = false)
    (hans : c.answers key = some (n, ids)) (h : c.matchPrefix cfg key req = .ok (c', req', res)) :
    c.lastIds = some ids ∧ n = (c.hitLen key ids).1 ∧ 0 < n ∧ c'.lastIds = c.lastIds ∧
      c'.cuts = if n < ids.length then c.cuts.filter (fun cut => decide (cut ≤ n))
        else c.cuts := by
  rw [Cache.answers] at hans
  split at hans
  case h_2 => cases hans
  rename_i ref ids' hslot hids
  split at hans
  case isFalse => cases hans
  rename_i hcond
  cases hans
  rw [Bool.and_eq_true, decide_eq_true_eq] at hcond
  obtain ⟨hholds, hpos⟩ := hcond
  refine ⟨hids, rfl, hpos, ?_⟩
  obtain ⟨req1, hcase, rfl⟩ := matchPrefix_cases h
  cases hcase with
  | health hh => simp [hreq] at hh
  | stale _ hslot' _ hno _ =>
    cases hslot.symm.trans hslot'
    simp [ReqKvInfo.holdsKv, hno] at hholds
  | unpinned _ hno _ => simp [hslot, hids] at hno
  | missed _ _ hids' hlen _ _ | adopted _ _ hids' hlen _ =>
    cases hids.symm.trans hids'
    omega
  | hit _ _ hids' _ _ hfree =>
    cases hids.symm.trans hids'
    have hsame := SamePin.freeTail hfree
    exact ⟨hsame.lastIds, by simp only [hsame.cuts]⟩

omit [DecidableEq Key] in
/-- What the pin and the key share up to the reused length. -/
lemma prefix_of_hitLen {ids p : List Token} (hpos : 0 < (c.hitLen key ids).1) (hp : p <+: ids)
    (hle : p.length ≤ (c.hitLen key ids).1) : p <+: key.tokenIds := by
  have hshared : key.rawTokenIds.take p.length = p ∧ p.length ≤ key.rawTokenIds.length := by
    rw [prefix_iff_eq_take] at hp
    rcases hitLen_spec hpos with ⟨-, -, hall⟩ | ⟨-, -, -, hnew, htake⟩
    · have := congrArg (take p.length) hall
      have := congrArg List.length hall
      grind
    · have := congrArg (take p.length) htake
      grind
  rw [prefix_iff_eq_take, ← (take_rawTokenIds hshared.2).1, hshared.1]

lemma Kept.request (h : l.Kept) {limit : Option Nat} (hreq : req.isHealthCheck = false)
    (hs : l.joint.stepRequest cfg req limit = some j) : (l.look j req limit).Kept := by
  obtain ⟨-, -, c', req', res, hmatch, rfl⟩ := Joint.stepRequest_some hs
  have hsame := sameReq_matchPrefix hmatch
  have hsane : ∀ t ∈ (some ⟨req', .ready⟩ : Option Turn), t.Sane := fun t ht => by
    cases ht
    refine ⟨?_, fun e he => ?_⟩
    · rw [Req.isHealthCheck, hsame.rid]
      exact hreq
    · rw [hsame.extendEnd] at he
      cases he
  rw [look]
  dsimp only
  split
  · exact .start hsane
  rename_i n ids hans
  have hreq' : (Joint.arrive l.joint.cache req).2.isHealthCheck = false := hreq
  obtain ⟨hids, rfl, hpos, hids', hcuts⟩ := matchPrefix_of_answers hreq' hans hmatch
  generalize hn : (Cache.hitLen _ _ ids).1 = n at *
  have hlive : ∀ p ∈ (if n < ids.length then l.live.filter fun p => decide (p.length ≤ n)
      else l.live), p ∈ l.live ∧ p <+: ids ∧ p.length ≤ n := fun p hp => by
    have hmem : p ∈ l.live := by grind
    have hpre := h.pin p hmem ids hids
    have := hpre.length_le
    grind
  refine ⟨hsane, fun p hp t ht => ?_, fun p hp ids1 hm => ?_, fun p hp hrec => ?_⟩
  · cases ht
    obtain ⟨-, hpre, hle⟩ := hlive p hp
    rw [hsame.originInputIds]
    exact prefix_of_hitLen (hn ▸ hpos) hpre (hn ▸ hle)
  · exact h.pin p (hlive p hp).1 ids1 (hids' ▸ hm)
  · obtain ⟨hmem, -, hle⟩ := hlive p hp
    have hlisted := h.listed p hmem hrec
    rw [hcuts]
    split
    · exact hlisted.filter (by simpa using hle)
    · exact hlisted

/-- **One event** of a conversation in which chunk stops lie within the pin. -/
theorem Kept.step {fwd : Forward Rows Ring} {e : Event} (h : l.Kept) (hok : l.Within e)
    (hs : l.step cfg fwd e = some l') : l'.Kept := by
  rw [Logged.step, bind_eq_some_iff] at hs
  obtain ⟨j, hj, hs⟩ := hs
  cases e with
  | request req limit =>
    dsimp only at hs
    split at hs
    · cases hs
    rename_i hreq
    cases hs
    exact h.request (by simpa using hreq) hj
  | abort output =>
    cases hs
    obtain ⟨t, ht, hj⟩ := bind_eq_some_iff.1 hj
    obtain ⟨c, req, -, rfl⟩ := Joint.stepAbort_some hj
    exact .start fun t' ht' => by cases ht'
  | leave =>
    cases hs
    obtain ⟨t, ht, hj⟩ := bind_eq_some_iff.1 hj
    split at hj <;> cases hj
    exact h.frame rfl rfl fun t' ht' => by cases ht'
  | reserve seqLen committedLen =>
    cases hs
    obtain ⟨t, ht, hj⟩ := bind_eq_some_iff.1 hj
    obtain ⟨c, hgrow, rfl⟩ := map_eq_some_iff.1 hj
    have hsame := SamePin.growRow hgrow
    exact h.frame hsame.lastIds hsame.cuts fun t' ht' => ⟨h.sane t' ht', t', ht', rfl⟩
  | extend stop =>
    cases hs
    obtain ⟨t, ht, hj⟩ := bind_eq_some_iff.1 hj
    obtain ⟨-, hstart, hstop, c, _, _, _, hgrow, -, rfl⟩ := Joint.stepExtend_some hj
    have hsame := SamePin.growRow hgrow
    exact h.frame hsame.lastIds hsame.cuts fun t' ht' => by
      cases ht'
      exact ⟨⟨(h.sane t ht).served, fun e he => by cases he; exact ⟨by omega, hstop⟩⟩, t, ht, rfl⟩
  | verify prefixLen commit =>
    cases hs
    obtain ⟨t, ht, hj⟩ := bind_eq_some_iff.1 hj
    rw [Joint.stepVerify] at hj
    split at hj <;> cases hj
    exact h.frame rfl rfl fun t' ht' => by
      cases ht'
      exact ⟨⟨(h.sane t ht).served, (h.sane t ht).chunk⟩, t, ht, rfl⟩
  | unfinished sampled =>
    obtain ⟨t, ht, hj⟩ := bind_eq_some_iff.1 hj
    obtain ⟨t', ht', rfl⟩ := map_eq_some_iff.1 hs
    cases ht.symm.trans ht'
    exact h.unfinished ht hok hj
  | finish output finishedLen =>
    obtain ⟨t, ht, hj⟩ := bind_eq_some_iff.1 hj
    obtain ⟨t', ht', rfl⟩ := map_eq_some_iff.1 hs
    cases ht.symm.trans ht'
    exact h.finish ht hj

end
end Logged

/-- **Recorded stops are remembered** in every conversation whose later turns record their chunk
stops within the pin they found. -/
theorem recorded_stops_remembered [DecidableEq Key] (cfg : SessionConfig Key)
    (fwd : Forward Rows Ring) {j : Joint Key Rows Ring} {l : Logged Key Rows Ring}
    (hj : j.turn = none) (hrun : Run (Logged.step cfg fwd) Logged.Within (.start j) l) :
    l.Remembered :=
  Logged.Kept.remembered (hrun.invariant (Logged.Kept.start fun t ht => by rw [hj] at ht; cases ht)
    fun _ _ _ h hok hs => Logged.Kept.step h hok hs)

/-- Two turns; the second is prefilled in one chunk and records no stop but the end it pins. -/
def stopWithin : List Event :=
  [.request (sampleReq [0, 1]) none, .extend 2, .unfinished [2], .finish [2] none,
    .request (sampleReq [0, 1, 7]) none, .extend 3, .finish [8] none]

theorem stop_remembered_within :
    ∃ l, Run (Logged.step (sampleConfig false) sampleForward) Logged.Within
        (.start (sampleStart 1)) l ∧ l.live = [[0, 1, 7, 8], [0, 1]] ∧ l.Remembered := by
  exact Run.exists_of stopWithin (by decide +kernel)
    (by decide +kernel) fun l hrun hl => ⟨hl, recorded_stops_remembered _ _ rfl hrun⟩

/-- Two turns; the second records a chunk stop at 5, beyond the 3 pinned ids. -/
def stopBeyond : List Event :=
  [.request (sampleReq [0, 1]) none, .extend 2, .unfinished [2], .reserve 4 2, .verify 2 [2],
    .finish [2] none, .request (sampleReq (countTo 6)) none, .extend 5, .unfinished [], .extend 6,
    .unfinished [6], .finish [6] none]

/-- The finish of the second turn forgets the stop at 5: it is not a cut, and a request that shares
these 5 ids reuses 3. -/
theorem stop_forgotten :
    ∃ l, Run (Logged.step (sampleConfig false) sampleForward) (fun _ _ => True)
        (.start (sampleStart 1)) l ∧
      (l.joint.cache.hitLen ⟨countTo 5 ++ [9], none, none, none⟩ (countTo 7)).1 = 3 ∧
      ¬ l.Remembered := by
  refine Run.exists_of stopBeyond (p := fun l => l.joint.turn = none ∧
      countTo 7 ∈ l.joint.cache.lastIds ∧ countTo 5 ∈ l.live ∧
      (newer l.log (countTo 5)).dedup.length < boundaryKeep ∧ 5 ∉ l.joint.cache.cuts ∧
      (l.joint.cache.hitLen ⟨countTo 5 ++ [9], none, none, none⟩ (countTo 7)).1 = 3)
    (by decide +kernel) (by decide +kernel) ?_
  rintro l - ⟨hturn, hids, hlive, hrec, hcut, hlen⟩
  exact ⟨hlen, fun h => hcut (h hturn _ hids _ hlive (by decide) hrec).1⟩

end Sglang.Sticky
