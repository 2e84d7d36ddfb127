import Sglang.Reasoning.Parser

/-!
# Streamed and one-shot splits

`Cut k body R norm` says how every reader of `body` splits it: whatever was taken so far, the rest
shows the closing marker at the end of `R` or is still open, and then everything but the held-back
slice belongs to `R`.  The stream of a text with a cut gives `R` and `norm` as long as no opening
marker is stripped but the leading one.

* `Cut.unclosed`, `Cut.closed` and `Cut.tool`: the three shapes of a text have cuts.
* `Cut.reads`: the chunks of a text with a cut are read as the cut says.
* `stream_eq_detectAndParse_iff`: stream and one-shot split agree for all ways to cut the text,
  exactly if no opening marker can be stripped from inside of it.
-/

namespace Sglang.Reasoning
open Lib List Option Tokens

variable {k : Tokens} {o : Options} {v w s t r x y body R norm : Text} {st : State} {i j n : ℕ}

/-! ## Markers -/

section
variable (hv : v ∈ k.all)

include hv

lemma Tokens.ne_nil : v ≠ [] := (k.apart.2 v hv).1

/-- Markers do not overlap. -/
lemma Tokens.no_overlap (hw : w ∈ k.all) (h : OccursAt w s i)
    (h' : OccursAt v s j) (hij : i < j) : i + w.length ≤ j := by
  obtain ⟨c, hc⟩ := ne_none_iff_exists'.1 (mt head?_eq_none_iff.1 (ne_nil hv))
  exact h.no_overlap (((k.apart.2 v hv).2 w hw).1 c hc) hc h' hij

lemma Tokens.eq_of_isPrefix (hw : w ∈ k.all) : v <+: w → v = w := ((k.apart.2 v hv).2 w hw).2

/-- Two markers at one place are one. -/
lemma Tokens.eq_of_occursAt (hw : w ∈ k.all) (h : OccursAt v s i)
    (h' : OccursAt w s i) : v = w :=
  ( prefix_or_prefix_of_prefix h.2 h'.2).elim (eq_of_isPrefix hv hw)
    fun h => (eq_of_isPrefix hw hv h).symm

/-- A marker that is not in the text in front of another one comes after that. -/
lemma Tokens.le_of_occursAt (hw : w ∈ k.all) (hne : v ≠ w) (hR : ¬ v <:+: R)
    (h : OccursAt v (R ++ (w ++ x)) i) : R.length + w.length ≤ i := by
  have hat : OccursAt w (R ++ (w ++ x)) R.length :=
    occursAt_iff.2 ⟨R, x, (append_assoc _ _ _).symm, rfl⟩
  rcases Nat.lt_trichotomy i R.length with hlt | rfl | hgt
  · have := no_overlap hw hv h hat hlt
    exact absurd (infix_iff_occursAt.2 ⟨i, h.of_append this⟩) hR
  · exact absurd (eq_of_occursAt hv hw h hat) hne
  · exact no_overlap hv hw hat h hgt

/-- The beginning of a marker has none in it. -/
lemma Tokens.not_infix_of_isPrefix (hw : w ∈ k.all) (hs : s <+: w)
    (hne : w ≠ s) : ¬ v <:+: s := by
  intro hin
  obtain ⟨i, hi⟩ := infix_iff_occursAt.1 hin
  obtain ⟨y, rfl⟩ := hs
  have hat : OccursAt (s ++ y) (s ++ y) 0 := occursAt_zero.2 prefix_rfl
  have hv0 := length_pos_iff.2 (ne_nil hv)
  have hle := hi.1
  rcases Nat.eq_zero_or_pos i with rfl | hpos
  · have := congrArg List.length (eq_of_occursAt hv hw (hi.append y) hat)
    rw [length_append] at this
    have : y = [] := length_eq_zero_iff.1 (by omega)
    exact hne (by rw [this, append_nil])
  · have := no_overlap hv hw hat (hi.append y) hpos
    rw [length_append] at this
    omega

end

lemma Tokens.start_mem : k.thinkStart ∈ k.all := by simp [all]

lemma Tokens.end_mem : k.thinkEnd ∈ k.all := by simp [all]

lemma Tokens.tool_mem (hw : k.toolStart = some w) : w ∈ k.all := by simp [all, hw]

lemma closing_eq_none : closing k s = none ↔
    ¬ k.thinkEnd <:+: s ∧ ∀ w, k.toolStart = some w → ¬ w <:+: s := by
  rw [closing]
  cases h : find k.thinkEnd s with
  | some i => simp [← find_eq_none, h]
  | none => simp [← find_eq_none, h, bind_eq_none_iff]

/-- What closes a part of a text closes the text. -/
lemma closing_eq_none_of_isInfix (h : closing k s = none) (hst : t <:+: s) :
    closing k t = none := by
  grind [closing_eq_none]

/-! ## Held-back slices -/

/-- The longest end of the text that may begin a marker is held back. -/
lemma le_partialFrom {m : ℕ} (h : s.drop (s.length - m) <+: w) : ∀ {n}, m ≤ n →
    m ≤ partialFrom s w n
  | 0, hm => hm
  | n + 1, hm => by
    rw [partialFrom]
    split
    · exact hm
    rename_i hno
    refine le_partialFrom h (Nat.lt_succ_iff.1 (Nat.lt_of_le_of_ne hm ?_))
    rintro rfl
    exact hno h

/-- A suffix that begins a closing marker is held back. -/
lemma le_holdback (st : State) (hw : w = k.thinkEnd ∨ k.toolStart = some w) {m : ℕ}
    (hm : m ≤ s.length) (hlt : m < w.length) (h : s.drop (s.length - m) <+: w) :
    m ≤ holdback k st s := by
  have hp : m ≤ endsWithPartialToken s w := le_partialFrom h (by omega)
  have hmax : ∀ (l : List ℕ) (a : ℕ), a ≤ l.foldl max a ∧ ∀ b ∈ l, b ≤ l.foldl max a := by
    intro l
    induction l with
    | nil => simp
    | cons b l ih => grind
  refine hp.trans ((hmax _ 0).2 _ (List.mem_map_of_mem ?_))
  rcases hw with rfl | hw
  · simp
  · simp [hw]

/-! ## Cuts -/

/-- How `body` is split: into `R`, the closing marker if there is one, and `norm`. -/
structure Cut (k : Tokens) (body R norm : Text) : Prop where
  step : ∀ {r s y : Text}, body = r ++ (s ++ y) → r <+: R →
    (∃ i j, closing k s = some (i, j) ∧ r ++ s.take i = R ∧ s.drop j ++ y = norm) ∨
    closing k s = none ∧ (∀ st, r ++ s.take (s.length - holdback k st s) <+: R) ∧
      (y = [] → r ++ s = R ∧ norm = [])
  noStart : ¬ k.thinkStart <:+: R
  start : ¬ k.thinkStart <+: body

/-- A text without any marker is all reasoning, as far as it goes. -/
lemma Cut.unclosed (hR : ∀ v ∈ k.all, ¬ v <:+: R) : Cut k R R [] where
  step {r s y} hb hr := by
    have hs : s <:+: R := ⟨r, y, by rw [hb, append_assoc]⟩
    refine .inr ⟨closing_eq_none.2 ⟨fun h => hR _ end_mem (h.trans hs), fun w hw h =>
      hR w (tool_mem hw) (h.trans hs)⟩, fun st => ?_, ?_⟩
    · refine ⟨s.drop (s.length - holdback k st s) ++ y, ?_⟩
      rw [hb, append_assoc, ← append_assoc (take _ s), take_append_drop]
    · rintro rfl
      simp [hb]
  noStart := hR _ start_mem
  start h := hR _ start_mem h.isInfix

/-- A cut at a marker that is followed by anything. -/
lemma Cut.of_word (hw : w = k.thinkEnd ∨ k.toolStart = some w) (hR : ∀ v ∈ k.all, ¬ v <:+: R)
    (hne : k.thinkStart ≠ w) {d : ℕ} (hd : d ≤ w.length)
    (hsome : ∀ {s i}, s <:+: R ++ (w ++ x) → find w s = some i → closing k s = some (i, i + d))
    (hnone : ∀ {s}, s <:+: R ++ w → find w s = none → closing k s = none) :
    Cut k (R ++ (w ++ x)) R ((w ++ x).drop d) := by
  have hmem : w ∈ k.all := hw.elim (fun h => h ▸ end_mem) tool_mem
  obtain ⟨c, hc⟩ := ne_none_iff_exists'.1 (mt head?_eq_none_iff.1 (ne_nil hmem))
  have htail := ((k.apart.2 w hmem).2 w hmem).1 c hc
  refine ⟨fun {r s y} hb hr => ?_, hR _ start_mem, fun h => ?_⟩
  · have hs : s <:+: R ++ (w ++ x) := ⟨r, y, by rw [hb, append_assoc]⟩
    obtain ⟨R', rfl⟩ := hr
    have hR' : ¬ w <:+: R' := fun h => hR w hmem (h.trans (suffix_append _ _).isInfix)
    rw [append_assoc, append_cancel_left_eq, ← append_assoc] at hb
    by_cases hlen : (R' ++ w).length ≤ s.length
    · obtain ⟨x', rfl⟩ := prefix_of_prefix_length_le (prefix_append _ x)
        (hb ▸ prefix_append s y) hlen
      have hb : x = x' ++ y := by simpa using hb
      rw [append_assoc] at hs ⊢
      refine .inl ⟨_, _, hsome hs (find_append_word hc htail hR' x'), by simp, ?_⟩
      rw [hb, ← drop_drop, drop_left, drop_append_of_le_length hd,
        drop_append_of_le_length hd, append_assoc]
    · have hpre : s <+: R' ++ w := prefix_of_prefix_length_le (hb ▸ prefix_append s y)
        (prefix_append _ x) (by omega)
      have htake : s = (R' ++ w).take s.length := prefix_iff_eq_take.1 hpre
      have hnil : find w s = none := by
        grind [find_take_word]
      refine .inr ⟨hnone ((hpre.isInfix).trans ?_) hnil, fun st => ?_, ?_⟩
      · exact ⟨r, [], by simp⟩
      · refine (prefix_append_right_inj r).2 ?_
        have hle : s.length - holdback k st s ≤ R'.length := by
          by_contra hlt
          have := le_holdback st hw (m := s.length - R'.length) (s := s) (by omega)
            (by simp at hlen; omega) ?_
          · omega
          · rw [Nat.sub_sub_self (by omega)]
            obtain ⟨z, hz⟩ := hpre
            have := congrArg (drop R'.length) hz
            rw [drop_append_of_le_length (by omega), drop_left] at this
            exact ⟨z, this⟩
        exact prefix_of_prefix_length_le (( take_prefix _ _).trans hpre)
          (prefix_append _ _) (by rw [length_take]; omega)
      · grind
  · have := le_of_occursAt start_mem hmem hne (hR _ start_mem)
      (occursAt_zero.2 h)
    have := length_pos_iff.2 (ne_nil hmem)
    omega

lemma Tokens.not_infix_append (hv : v ∈ k.all) (hw : w ∈ k.all) (hne : v ≠ w) (hR : ¬ v <:+: R)
    (hx : ¬ v <:+: x) : ¬ v <:+: R ++ (w ++ x) := by
  intro h
  obtain ⟨i, hi⟩ := infix_iff_occursAt.1 h
  have hle := le_of_occursAt hv hw hne hR hi
  obtain ⟨m, rfl⟩ := Nat.exists_eq_add_of_le hle
  rw [← append_assoc, ← length_append, occursAt_append_left] at hi
  exact hx (infix_iff_occursAt.2 ⟨m, hi⟩)

lemma Tokens.not_infix_nil (hv : v ∈ k.all) : ¬ v <:+: [] :=
  fun h => ne_nil hv (infix_nil.1 h)

/-- The closing marker ends the reasoning; what follows is normal text. -/
lemma Cut.closed (hR : ∀ v ∈ k.all, ¬ v <:+: R) (x : Text) :
    Cut k (R ++ (k.thinkEnd ++ x)) R x := by
  have hne := k.apart.1
  have h := Cut.of_word (x := x) (.inl rfl) hR (by simp_all) le_rfl
    (fun _ hf => by simp [closing, hf]) fun {s} hs hf => closing_eq_none.2 ⟨find_eq_none.1 hf, ?_⟩
  · rwa [drop_left] at h
  · intro w hw hin
    have hne' : w ≠ k.thinkEnd := by rintro rfl; simp_all
    have := not_infix_append (tool_mem hw) end_mem hne'
      (hR w (tool_mem hw)) (not_infix_nil (tool_mem hw))
    rw [append_nil] at this
    exact this (hin.trans hs)

/-- A tool call ends the reasoning too and belongs to the normal text. -/
lemma Cut.tool (hR : ∀ v ∈ k.all, ¬ v <:+: R) (hw : k.toolStart = some w)
    (hx : ¬ k.thinkEnd <:+: x) : Cut k (R ++ (w ++ x)) R (w ++ x) := by
  have hne := k.apart.1
  have hE : ¬ k.thinkEnd <:+: R ++ (w ++ x) := not_infix_append end_mem
    (tool_mem hw) (by simp_all) (hR _ end_mem) hx
  refine Cut.of_word (.inr hw) hR (by simp_all) (Nat.zero_le _) (fun hs hf => ?_)
    fun hs hf => closing_eq_none.2 ⟨fun h => hE (h.trans (hs.trans ?_)), fun w' hw' h => ?_⟩
  · rw [closing, find_eq_none.2 fun h => hE (h.trans hs)]
    simp [hw, hf]
  · exact ⟨[], x, by simp⟩
  · cases hw.symm.trans hw'
    exact find_eq_none.1 hf h

/-! ## The stream of a text with a cut -/

lemma Result.nil_append (a : Result) : Result.append {} a = a := rfl

lemma Result.append_assoc (a b c : Result) : (a.append b).append c = a.append (b.append c) := by
  simp [Result.append]

variable {stripped : Bool}

/-- Outside of the reasoning everything is emitted. -/
lemma streamFrom_normal : ∀ {cs} {buffer : Text},
    stripped = true ∨ ¬ k.thinkStart <:+: buffer ++ cs.flatten →
    streamFrom k o ⟨buffer, false, stripped⟩ cs = { normalText := buffer ++ cs.flatten }
  | [], buffer, _ => by simp [streamFrom, finish]
  | c :: cs, buffer, hs => by
    rw [flatten_cons, ← append_assoc] at hs ⊢
    have hs' : stripped = true ∨ ¬ k.thinkStart <:+: [] ++ cs.flatten :=
      hs.imp_right fun h h' => h (h'.trans (suffix_append _ _).isInfix)
    rw [streamFrom, parseStreamingIncrement]
    dsimp only
    split
    · rw [streamFrom_normal hs, Result.nil_append]
    · rw [if_neg]
      · simp [advance, streamFrom_normal hs', Result.append]
      · rintro ⟨h, h'⟩
        exact hs.elim (by simp [h]) fun hno => hno (h'.trans (prefix_append _ _).isInfix)

/-- What is left of the stream while the reasoning goes on. -/
def Reads (k : Tokens) (o : Options) (stripped : Bool) (body R norm : Text) (cs : List Text) :
    Prop :=
  ∀ buffer r : Text, closing k buffer = none → body = r ++ (buffer ++ cs.flatten) → r <+: R →
    Result.append { reasoningText := r } (streamFrom k o ⟨buffer, true, stripped⟩ cs) = ⟨norm, R⟩

/-- One chunk of the stream, whatever was held back before it. -/
lemma Cut.advance (h : Cut k body R norm) (st : State) {cs : List Text}
    (ih : Reads k o stripped body R norm cs) (hs : stripped = true ∨ ¬ k.thinkStart <:+: body)
    (hst : st.inReasoning = true ∧ st.strippedThinkStart = stripped)
    (hb : body = r ++ (s ++ cs.flatten)) (hr : r <+: R) :
    Result.append { reasoningText := r } ((advance k o st s).2.append
      (streamFrom k o (advance k o st s).1 cs)) = ⟨norm, R⟩ := by
  obtain ⟨hin, rfl⟩ := hst
  rw [advance, if_pos hin]
  rcases h.step hb hr with ⟨i, j, hc, rfl, rfl⟩ | ⟨hc, hhold, -⟩
  · have hs' : st.strippedThinkStart = true ∨ ¬ k.thinkStart <:+: [] ++ cs.flatten :=
      hs.imp_right fun h h' => h (h'.trans (hb ▸ ⟨r ++ s, [], by simp⟩))
    simp [hc, streamFrom_normal hs', Result.append]
  · rw [hc]
    dsimp only
    split
    · rw [← Result.append_assoc]
      have hsuf := (drop_suffix (s.length - holdback k st s) s).isInfix
      have := ih (s.drop (s.length - holdback k st s)) _ (closing_eq_none_of_isInfix hc hsuf) ?_
        (hhold st)
      · rwa [hin]
      · rw [hb, append_assoc, ← append_assoc (take _ s), take_append_drop]
    · rw [Result.nil_append, hin]
      exact ih s r hc hb hr

/-- The chunks of a text with a cut give what the cut says. -/
lemma Cut.reads (h : Cut k body R norm) (hs : stripped = true ∨ ¬ k.thinkStart <:+: body) :
    ∀ cs, Reads k o stripped body R norm cs
  | [], buffer, r, hc, hb, hr => by
    rcases h.step hb hr with ⟨i, j, hc', -⟩ | ⟨-, -, hend⟩
    · exact (by cases hc.symm.trans hc')
    obtain ⟨rfl, rfl⟩ := hend rfl
    have : ¬ k.thinkStart <+: buffer := fun hp =>
      h.noStart (hp.isInfix.trans (suffix_append r buffer).isInfix)
    simp [streamFrom, finish, this, Result.append]
  | c :: cs, buffer, r, hc, hb, hr => by
    rw [flatten_cons, ← append_assoc buffer] at hb
    rw [streamFrom, parseStreamingIncrement]
    dsimp only
    split
    · rename_i hw
      obtain ⟨w, hw, hpre, hne⟩ := hw
      refine h.reads hs cs _ r (closing_eq_none.2 ⟨?_, fun v hv => ?_⟩) hb hr
      · exact not_infix_of_isPrefix end_mem hw hpre hne
      · exact not_infix_of_isPrefix (tool_mem hv) hw hpre hne
    · rw [if_neg]
      · exact h.advance _ (h.reads hs cs) hs ⟨rfl, rfl⟩ hb hr
      · rintro ⟨h1, h2⟩
        exact hs.elim (by simp [h1]) fun hno =>
          hno (h2.trans ⟨r, cs.flatten, by rw [hb, append_assoc]⟩)

/-- The opening marker, then a text with a cut. -/
lemma Cut.streamFrom_lead (h : Cut k body R norm) {force : Bool} : ∀ {cs : List Text} {u : Text},
    u <+: k.thinkStart → u ≠ k.thinkStart → k.thinkStart ++ body = u ++ cs.flatten →
    streamFrom k o ⟨u, force, false⟩ cs = ⟨norm, R⟩
  | [], u, hu, hne, hb => by
    have hle := hu.length_le
    have := congrArg List.length hb
    rw [flatten_nil, append_nil, length_append] at this
    exact absurd (hu.eq_of_length (by omega)) hne
  | c :: cs, u, hu, hne, hb => by
    rw [flatten_cons, ← append_assoc u] at hb
    rw [streamFrom, parseStreamingIncrement]
    by_cases hlt : (u ++ c).length < k.thinkStart.length
    · have hpre : u ++ c <+: k.thinkStart := prefix_of_prefix_length_le
        (hb ▸ prefix_append _ _) (prefix_append _ body) (by omega)
      have hne' : u ++ c ≠ k.thinkStart := fun h => by rw [h] at hlt; omega
      rw [if_pos ⟨_, start_mem, hpre, hne'.symm⟩]
      exact h.streamFrom_lead hpre hne' hb
    · obtain ⟨s, hs⟩ : k.thinkStart <+: u ++ c := prefix_of_prefix_length_le
        (prefix_append _ body) (hb ▸ prefix_append _ _) (by omega)
      rw [← hs] at hb ⊢
      rw [if_neg, if_pos ⟨rfl, (prefix_append _ _).isInfix⟩]
      · have hfind : find k.thinkStart (k.thinkStart ++ s) = some 0 :=
          find_eq_some.2 ⟨occursAt_zero.2 (prefix_append _ _), by simp⟩
        have hb' : body = s ++ cs.flatten := by simpa using hb
        have := h.advance (o := o) ⟨u, true, true⟩ (h.reads (.inl rfl) cs)
          (.inl rfl) ⟨rfl, rfl⟩ hb' nil_prefix
        rw [Result.nil_append] at this
        simpa [removeFirst, hfind] using this
      · rintro ⟨w, hw, hpre, hne'⟩
        have := eq_of_isPrefix start_mem hw ((prefix_append _ s).trans hpre)
        subst this
        exact hne' ((prefix_append _ s).eq_of_length_le hpre.length_le)

/-! ## The texts -/

/-- The texts in question: without an opening marker, or one that may be left out if reasoning is
forced, a text without markers, and then nothing, the end marker and anything, or the tool marker
and a text without the end marker. -/
inductive Shaped (k : Tokens) (force : Bool) : Text → Prop
  | plain {text : Text} (hf : force = false) (hs : ¬ k.thinkStart <:+: text) : Shaped k force text
  | reasoning {lead : Bool} {R tail : Text} (hl : force = true ∨ lead = true)
      (hR : ∀ v ∈ k.all, ¬ v <:+: R)
      (ht : tail = [] ∨ (∃ n, tail = k.thinkEnd ++ n) ∨
        ∃ w x, k.toolStart = some w ∧ tail = w ++ x ∧ ¬ k.thinkEnd <:+: x) :
      Shaped k force ((if lead then k.thinkStart else []) ++ (R ++ tail))

lemma Cut.of_tail {tail : Text} (hR : ∀ v ∈ k.all, ¬ v <:+: R)
    (ht : tail = [] ∨ (∃ n, tail = k.thinkEnd ++ n) ∨
      ∃ w x, k.toolStart = some w ∧ tail = w ++ x ∧ ¬ k.thinkEnd <:+: x) :
    ∃ norm, Cut k (R ++ tail) R norm := by
  rcases ht with rfl | ⟨n, rfl⟩ | ⟨w, x, hw, rfl, hx⟩
  · exact ⟨[], by rw [append_nil]; exact Cut.unclosed hR⟩
  · exact ⟨n, Cut.closed hR n⟩
  · exact ⟨w ++ x, Cut.tool hR hw hx⟩

lemma stripStarts_eq (h : ¬ w <+: s) : ∀ n, stripStarts w n s = s
  | 0 => rfl
  | _ + 1 => if_neg h

/-- The split of a text at once. -/
lemma Cut.detectAndParse (h : Cut k body R norm) {lead : Bool}
    (hl : o.forceReasoning = true ∨ lead = true) :
    detectAndParse k o ((if lead then k.thinkStart else []) ++ body) = ⟨norm, R⟩ := by
  have hstrip : ∀ {text}, text = (if lead then k.thinkStart else []) ++ body →
      stripStarts k.thinkStart text.length text = body := by
    rintro _ rfl
    cases lead with
    | false => exact stripStarts_eq h.start _
    | true =>
      obtain ⟨n, hn⟩ := Nat.exists_eq_succ_of_ne_zero
        (mt length_eq_zero_iff.1 (ne_nil (start_mem (k := k))))
      simp only [if_true, length_append, hn, Nat.succ_add, stripStarts]
      rw [if_pos (prefix_append _ _), ← hn, drop_left, stripStarts_eq h.start]
  rw [Reasoning.detectAndParse, if_neg, hstrip rfl]
  · rcases h.step (s := body) (y := []) (by simp) nil_prefix with
      ⟨i, j, hc, hR, hn⟩ | ⟨hc, -, hend⟩
    · simp_all
    · simp_all
  · grind [prefix_append]

/-! ## A marker that is stripped from inside -/

def Result.size (a : Result) : ℕ := a.normalText.length + a.reasoningText.length

/-- The characters of the end marker that are dropped. -/
def dropped (k : Tokens) (s : Text) : ℕ := if k.thinkEnd <:+: s then k.thinkEnd.length else 0

lemma length_of_closing (h : closing k s = some (i, j)) : j = i + dropped k s ∧ j ≤ s.length := by
  rw [closing] at h
  cases hf : find k.thinkEnd s with
  | some m =>
    rw [hf] at h
    cases h
    have := (find_eq_some.1 hf).1
    exact ⟨by rw [dropped, if_pos (infix_iff_occursAt.2 ⟨_, this⟩)], this.1⟩
  | none =>
    rw [hf] at h
    obtain ⟨m, hm, he⟩ := map_eq_some_iff.1 h
    cases he
    obtain ⟨w, -, hw⟩ := bind_eq_some_iff.1 hm
    have := (find_eq_some.1 hw).1.1
    exact ⟨by rw [dropped, if_neg (find_eq_none.1 hf)]; rfl, by omega⟩

lemma dropped_of_closing (h : closing k s = none) : dropped k s = 0 :=
  if_neg (closing_eq_none.1 h).1

/-- A step returns no more characters than it was given, less the closing marker. -/
lemma size_advance_le (o : Options) (st : State) (hin : st.inReasoning = true) :
    ((advance k o st s).2.append (finish k (advance k o st s).1)).size + dropped k s ≤
      s.length := by
  rw [advance, if_pos hin]
  cases hc : closing k s with
  | some p =>
    have := length_of_closing hc
    simp [finish, Result.append, Result.size]
    omega
  | none =>
    rw [dropped_of_closing hc]
    simp only [finish, hin, Result.append, Result.size]
    split <;> grind

/-- At once, nothing gets lost but the closing marker. -/
lemma size_detectAndParse (hf : o.forceReasoning = true) (hs : ¬ k.thinkStart <+: s) :
    (detectAndParse k o s).size + dropped k s = s.length := by
  rw [detectAndParse, if_neg (by simp [hf]), stripStarts_eq hs]
  dsimp only
  cases hc : closing k s with
  | some p =>
    have := length_of_closing hc
    simp [Result.size]
    omega
  | none => simp [dropped_of_closing hc, Result.size]

/-- An end marker is still there without the opening marker. -/
lemma dropped_removeFirst (h : k.thinkStart <:+: s) :
    (removeFirst k.thinkStart s).length + k.thinkStart.length = s.length ∧
      dropped k s ≤ dropped k (removeFirst k.thinkStart s) := by
  obtain ⟨i, hi⟩ := isSome_iff_exists.1 (find_isSome.2 h)
  have hat := (find_eq_some.1 hi).1
  have hle := hat.1
  rw [removeFirst, hi]
  refine ⟨by simp; omega, ?_⟩
  rw [dropped, dropped]
  split
  · rename_i hE
    rw [if_pos]
    obtain ⟨j, hj⟩ := infix_iff_occursAt.1 hE
    rcases Nat.lt_trichotomy i j with hlt | rfl | hgt
    · have := hj.infix_drop (no_overlap end_mem start_mem hat hj hlt)
      exact this.trans (suffix_append _ _).isInfix
    · have := eq_of_occursAt end_mem start_mem hj hat
      have := k.apart.1
      simp_all
    · have hend := no_overlap start_mem end_mem hj hat hgt
      have := (take_append_drop i s).symm ▸ hj
      refine (infix_iff_occursAt.2 ⟨j, this.of_append ?_⟩).trans (prefix_append _ _).isInfix
      rw [length_take]
      omega
  · exact Nat.zero_le _

/-- The text in one chunk. -/
lemma stream_ne_detectAndParse {text : Text} (hf : o.forceReasoning = true)
    (hs : ¬ k.thinkStart <+: text) (hin : k.thinkStart <:+: text) :
    stream k o [text] ≠ detectAndParse k o text := by
  intro h
  have hearly : ¬ ∃ w ∈ k.all, text <+: w ∧ w ≠ text := fun ⟨w, hw, hpre, hne⟩ =>
    not_infix_of_isPrefix start_mem hw hpre hne hin
  have hlen := size_detectAndParse hf hs
  rw [← h, stream, streamFrom, parseStreamingIncrement, State.start, nil_append, if_neg hearly,
    if_pos ⟨rfl, hin⟩] at hlen
  have hle := size_advance_le (k := k) o ⟨[], true, true⟩
    (s := removeFirst k.thinkStart text) rfl
  obtain ⟨hrem, hdrop⟩ := dropped_removeFirst hin
  have hpos := length_pos_iff.2 (ne_nil (start_mem (k := k)))
  dsimp only [streamFrom] at hlen
  omega

/-- **The stream and the split at once agree**, for a text of the given shapes and all ways to cut
it into chunks, just if no opening marker can be stripped from inside of it. -/
theorem stream_eq_detectAndParse_iff {text : Text} (h : Shaped k o.forceReasoning text) :
    (∀ chunks : List Text, chunks.flatten = text → stream k o chunks = detectAndParse k o text) ↔
      o.forceReasoning = false ∨ k.thinkStart <+: text ∨ ¬ k.thinkStart <:+: text := by
  constructor
  · intro hall
    by_contra hno
    simp only [not_or, Bool.not_eq_false, not_not] at hno
    exact stream_ne_detectAndParse hno.1 hno.2.1 hno.2.2 (hall [text] (by simp))
  · intro hok chunks hch
    cases h with
    | plain hf hs =>
      grind [detectAndParse, stream, State.start, streamFrom_normal]
    | @reasoning lead R tail hl hR ht =>
      obtain ⟨norm, hcut⟩ := Cut.of_tail hR ht
      rw [hcut.detectAndParse hl, stream, State.start]
      cases lead with
      | true =>
        exact hcut.streamFrom_lead nil_prefix (ne_nil start_mem).symm hch.symm
      | false =>
        have hf : o.forceReasoning = true := by simpa using hl
        have hs : ¬ k.thinkStart <:+: R ++ tail := by simpa [hf, hcut.start] using hok
        have := hcut.reads (o := o) (.inr hs : false = true ∨ _) chunks [] [] ?_ hch.symm
          nil_prefix
        · rwa [Result.nil_append, ← hf] at this
        · exact closing_eq_none.2 ⟨not_infix_nil end_mem, fun w hw => not_infix_nil (tool_mem hw)⟩

def thinkTokens : Tokens :=
  ⟨"<think>".toList, "</think>".toList, some "<tool_call>".toList, by unfold Apart; simp⟩

lemma shaped_closed (lead : Bool) : Shaped thinkTokens true
    ((if lead then thinkTokens.thinkStart else []) ++ "r</think>a<think>b".toList) :=
  .reasoning (R := ['r']) (.inl rfl) (by decide) (.inr (.inl ⟨"a<think>b".toList, rfl⟩))

/-- An opening marker, then the same text, in two chunks. -/
theorem stream_eq_of_lead :
    stream thinkTokens ⟨true, true⟩ ["<think>r<".toList, "/think>a<think>b".toList] =
      ⟨"a<think>b".toList, "r".toList⟩ :=
  (stream_eq_detectAndParse_iff (shaped_closed true)).2
    (.inr (.inl (by decide))) ["<think>r<".toList, "/think>a<think>b".toList] rfl

/-- Without it the marker inside of the answer is lost. -/
theorem stream_loses_marker : Shaped thinkTokens true "r</think>a<think>b".toList ∧
    stream thinkTokens ⟨true, true⟩ ["r</think>a<think>b".toList] = ⟨"ab".toList, "r".toList⟩ ∧
    detectAndParse thinkTokens ⟨true, true⟩ "r</think>a<think>b".toList =
      ⟨"a<think>b".toList, "r".toList⟩ :=
  ⟨shaped_closed false, by decide, by decide⟩

end Sglang.Reasoning
