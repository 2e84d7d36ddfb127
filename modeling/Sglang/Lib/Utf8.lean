import Mathlib.Tactic

/-!
# Lossy UTF-8 decoding

Bytes are decoded by a machine that reads one of them at a time: between characters (`start`), or
inside one, with a number of continuation bytes still owed and a range for the next of them
(`Range`: the second byte after `E0`, `ED`, `F0` and `F4` is restricted).  A byte that cannot go on
where the machine stands gives U+FFFD for what was read of the character so far, and is then read
between characters; so each maximal undecodable piece gives one U+FFFD.  What is left over at the
end gives one more.

`decode_append` says that a text may be decoded in two parts if the first ends between characters,
`output_isPrefix` that what the machine has written stays, and `decode_suffix` that a machine
started in the middle writes U+FFFD for the rest of the character it starts in and then what the one
that began at the front writes.  `decode_encode` says that nothing is lost of a text that is
encoded.
-/

namespace Lib.Utf8
open List Utf8 UInt8

/-- What is put for undecodable bytes. -/
def replacement : Char := '�'

/-- The values that the next continuation byte may have. -/
inductive Range
  | any | afterE0 | afterED | afterF0 | afterF4
  deriving DecidableEq, Repr

def Range.lo : Range → UInt8
  | .any | .afterED | .afterF4 => 0x80
  | .afterE0 => 0xA0
  | .afterF0 => 0x90

def Range.hi : Range → UInt8
  | .any | .afterE0 | .afterF0 => 0xBF
  | .afterED => 0x9F
  | .afterF4 => 0x8F

/-- Between characters, or `need + 1` bytes before the end of one whose bits so far are `acc`. -/
inductive State
  | start
  | more (need : ℕ) (range : Range) (acc : ℕ)
  deriving DecidableEq, Repr

/-- A byte read between characters. -/
def first (b : UInt8) : List Char × State :=
  if b ≤ 0x7F then ([Char.ofNat b.toNat], .start)
  else if b < 0xC2 then ([replacement], .start)
  else if b ≤ 0xDF then ([], .more 0 .any (b.toNat - 0xC0))
  else if b = 0xE0 then ([], .more 1 .afterE0 0)
  else if b = 0xED then ([], .more 1 .afterED 0xD)
  else if b ≤ 0xEF then ([], .more 1 .any (b.toNat - 0xE0))
  else if b = 0xF0 then ([], .more 2 .afterF0 0)
  else if b = 0xF4 then ([], .more 2 .afterF4 4)
  else if b < 0xF4 then ([], .more 2 .any (b.toNat - 0xF0))
  else ([replacement], .start)

/-- A continuation byte in its range. -/
def next (need acc : ℕ) (b : UInt8) : List Char × State :=
  match need with
  | 0 => ([Char.ofNat (acc * 64 + b.toNat % 64)], .start)
  | n + 1 => ([], .more n .any (acc * 64 + b.toNat % 64))

/-- One byte: the characters it completes, and where the machine stands. -/
def step : State → UInt8 → List Char × State
  | .start, b => first b
  | .more need range acc, b =>
    if range.lo ≤ b ∧ b ≤ range.hi then next need acc b
    else (replacement :: (first b).1, (first b).2)

/-- A sequence of bytes: the characters they complete, and where the machine stands. -/
def run : State → List UInt8 → List Char × State
  | q, [] => ([], q)
  | q, b :: bs => ((step q b).1 ++ (run (step q b).2 bs).1, (run (step q b).2 bs).2)

/-- What the end of the bytes gives. -/
def flush : State → List Char
  | .start => []
  | .more _ _ _ => [replacement]

/-- Lossy decoding. -/
def decode (bs : List UInt8) : List Char := (run .start bs).1 ++ flush (run .start bs).2

variable {q q' : State} {xs ys : List UInt8} {b : UInt8}

/-! ## In two parts -/

lemma run_append (q : State) (xs ys : List UInt8) : run q (xs ++ ys) =
    ((run q xs).1 ++ (run (run q xs).2 ys).1, (run (run q xs).2 ys).2) := by
  induction xs generalizing q with
  | nil => rfl
  | cons b xs ih =>
    rw [cons_append, run, ih, run, append_assoc]

lemma decode_append_eq (xs ys : List UInt8) : decode (xs ++ ys) =
    (run .start xs).1 ++ ((run (run .start xs).2 ys).1 ++ flush (run (run .start xs).2 ys).2) := by
  rw [decode, run_append, append_assoc]

lemma decode_append (h : (run .start xs).2 = .start) (ys : List UInt8) :
    decode (xs ++ ys) = decode xs ++ decode ys := by
  grind [decode_append_eq, decode, flush]

lemma output_isPrefix (xs ys : List UInt8) : (run .start xs).1 <+: decode (xs ++ ys) := by
  simp [decode_append_eq]

lemma run_start_of_getLast_ne (h : (decode xs).getLast? ≠ some replacement) :
    (run .start xs).2 = .start := by
  rw [decode] at h
  cases hq : (run .start xs).2 with
  | start => rfl
  | more need range acc =>
    simp_all [flush]

/-- Without its last character a decoded text is what has been written, or less. -/
lemma dropLast_decode_prefix (xs ys : List UInt8) :
    (decode xs).dropLast <+: decode (xs ++ ys) := by
  refine List.IsPrefix.trans ?_ (output_isPrefix xs ys)
  rw [decode]
  cases (run .start xs).2 with
  | start => rw [flush, append_nil]; exact dropLast_prefix _
  | more need range acc => rw [flush, dropLast_concat]

/-! ## From the middle -/

lemma Range.lo_le_iff (range : Range) (h : range.lo ≤ b ∧ b ≤ range.hi) :
    0x80 ≤ b ∧ b ≤ 0xBF := by
  cases range <;> simp only [Range.lo, Range.hi, le_iff_toNat_le] at h ⊢ <;>
    exact ⟨le_trans (by decide) h.1, le_trans h.2 (by decide)⟩

lemma first_of_continuation (h : 0x80 ≤ b ∧ b ≤ 0xBF) : first b = ([replacement], .start) := by
  grind [first]

/-- One machine stands where the other does, or between characters. -/
def Behind (q q' : State) : Prop := q = q' ∨ q = .start

lemma Behind.step (h : Behind q q') (b : UInt8) : Behind (step q b).2 (step q' b).2 := by
  rcases h with rfl | rfl
  · exact .inl rfl
  cases q' with
  | start => exact .inl rfl
  | more need range acc =>
    by_cases hb : range.lo ≤ b ∧ b ≤ range.hi
    · refine .inr ?_
      rw [step, first_of_continuation (range.lo_le_iff hb)]
    · refine .inl ?_
      rw [step, step, if_neg hb]

lemma Behind.run (h : Behind q q') (xs : List UInt8) : Behind (run q xs).2 (run q' xs).2 := by
  induction xs generalizing q q' with
  | nil => exact h
  | cons b xs ih => exact ih (h.step b)

/-- A machine started in the middle is between characters where the one from the front is. -/
lemma run_suffix_start (h : (run .start (xs ++ ys)).2 = .start) :
    (run .start ys).2 = .start := by
  rw [run_append] at h
  rcases Behind.run (.inr rfl : Behind .start (run .start xs).2) ys with heq | heq
  · rw [heq]
    exact h
  · exact heq

/-- What the machine writes from a state on. -/
def decodeFrom (q : State) (bs : List UInt8) : List Char := (run q bs).1 ++ flush (run q bs).2

lemma decodeFrom_cons (q : State) (b : UInt8) (bs : List UInt8) :
    decodeFrom q (b :: bs) = (step q b).1 ++ decodeFrom (step q b).2 bs := by
  simp [decodeFrom, run]

/-- Inside a character: the machine that starts here writes U+FFFD for what is left of it. -/
lemma decodeFrom_start_of_more (need : ℕ) (range : Range) (acc : ℕ) (ys : List UInt8) :
    ∃ m, decode ys = replicate m replacement ++ (decodeFrom (.more need range acc) ys).drop 1 := by
  induction ys generalizing need range acc with
  | nil => exact ⟨0, rfl⟩
  | cons b ys ih =>
    have hcons : decode (b :: ys) = (first b).1 ++ decodeFrom (first b).2 ys :=
      decodeFrom_cons .start b ys
    by_cases hb : range.lo ≤ b ∧ b ≤ range.hi
    · have hstep : step (.more need range acc) b = next need acc b := if_pos hb
      rw [decodeFrom_cons, hstep, hcons, first_of_continuation (range.lo_le_iff hb)]
      cases need with
      | zero => exact ⟨1, rfl⟩
      | succ n =>
        obtain ⟨m, hm⟩ := ih n .any (acc * 64 + b.toNat % 64)
        exact ⟨m + 1, congrArg (replacement :: ·) hm⟩
    · have hstep : step (.more need range acc) b = (replacement :: (first b).1, (first b).2) :=
        if_neg hb
      rw [decodeFrom_cons, hstep, hcons]
      exact ⟨0, rfl⟩

/-- **Decoding from the middle**: U+FFFD for the rest of a character, then the rest of the text. -/
theorem decode_suffix (xs ys : List UInt8) : ∃ m, decode ys =
    replicate m replacement ++ (decode (xs ++ ys)).drop (decode xs).length := by
  have happ : decode (xs ++ ys) = (run .start xs).1 ++ decodeFrom (run .start xs).2 ys :=
    decode_append_eq xs ys
  have hxs : decode xs = (run .start xs).1 ++ flush (run .start xs).2 := rfl
  rw [happ, hxs]
  cases (run .start xs).2 with
  | start =>
    refine ⟨0, ?_⟩
    rw [flush, append_nil, drop_left]
    rfl
  | more need range acc =>
    obtain ⟨m, hm⟩ := decodeFrom_start_of_more need range acc ys
    refine ⟨m, ?_⟩
    rw [flush, length_append, length_singleton, ← drop_drop, drop_left]
    exact hm

/-! ## Encoding -/

/-- The bytes of a character. -/
def encodeChar (c : Char) : List UInt8 :=
  let v := c.toNat
  if v < 0x80 then [.ofNat v]
  else if v < 0x800 then [.ofNat (0xC0 + v / 64), .ofNat (0x80 + v % 64)]
  else if v < 0x10000 then
    [.ofNat (0xE0 + v / 4096), .ofNat (0x80 + v / 64 % 64), .ofNat (0x80 + v % 64)]
  else [.ofNat (0xF0 + v / 262144), .ofNat (0x80 + v / 4096 % 64), .ofNat (0x80 + v / 64 % 64),
    .ofNat (0x80 + v % 64)]

def encode (cs : List Char) : List UInt8 := cs.flatMap encodeChar

variable {n : ℕ}

lemma toNat_ofNat_of_lt (h : n < 256) : (ofNat n).toNat = n := by
  rw [toNat_ofNat', Nat.mod_eq_of_lt h]

lemma first_ofNat (h : n < 256) : first (.ofNat n) = if n ≤ 0x7F then ([Char.ofNat n], .start)
    else if n < 0xC2 then ([replacement], .start)
    else if n ≤ 0xDF then ([], .more 0 .any (n - 0xC0))
    else if n = 0xE0 then ([], .more 1 .afterE0 0)
    else if n = 0xED then ([], .more 1 .afterED 0xD)
    else if n ≤ 0xEF then ([], .more 1 .any (n - 0xE0))
    else if n = 0xF0 then ([], .more 2 .afterF0 0)
    else if n = 0xF4 then ([], .more 2 .afterF4 4)
    else if n < 0xF4 then ([], .more 2 .any (n - 0xF0))
    else ([replacement], .start) := by
  simp only [first, le_iff_toNat_le, lt_iff_toNat_lt, ← UInt8.toNat_inj,
    toNat_ofNat_of_lt h]
  rfl

variable {range : Range}

lemma step_more_ofNat {need acc : ℕ} (h : n < 64) (hlo : range.lo.toNat ≤ 0x80 + n)
    (hhi : 0x80 + n ≤ range.hi.toNat) :
    step (.more need range acc) (.ofNat (0x80 + n)) = match need with
      | 0 => ([Char.ofNat (acc * 64 + n)], .start)
      | k + 1 => ([], .more k .any (acc * 64 + n)) := by
  have hn : (ofNat (0x80 + n)).toNat = 0x80 + n := toNat_ofNat_of_lt (by omega)
  have hmod : (0x80 + n) % 64 = n := by omega
  rw [step, if_pos]
  · cases need <;> rw [next, hn, hmod]
  · grind [le_iff_toNat_le]

lemma run_cons (q : State) (b : UInt8) (bs : List UInt8) : run q (b :: bs) =
    ((step q b).1 ++ (run (step q b).2 bs).1,
      (run (step q b).2 bs).2) := rfl

/-- The bits of a two-, three- and four-byte character come back together. -/
lemma run_two {v a : ℕ} (hv : v < 64 * 64) (hlo : range.lo.toNat ≤ 0x80 + v / 64)
    (hhi : 0x80 + v / 64 ≤ range.hi.toNat) :
    run (.more 1 range a) [.ofNat (0x80 + v / 64), .ofNat (0x80 + v % 64)] =
      ([Char.ofNat (a * 4096 + v)], .start) := by
  rw [run_cons, step_more_ofNat (by omega) hlo hhi]
  rw [run_cons, step_more_ofNat (by omega) (by show 128 ≤ _; omega) (by show _ ≤ 191; omega)]
  have : (a * 64 + v / 64) * 64 + v % 64 = a * 4096 + v := by omega
  rw [this]
  rfl

lemma run_three {v a : ℕ} (hv : v < 64 * 4096) (hlo : range.lo.toNat ≤ 0x80 + v / 4096)
    (hhi : 0x80 + v / 4096 ≤ range.hi.toNat) :
    run (.more 2 range a) [.ofNat (0x80 + v / 4096), .ofNat (0x80 + v / 64 % 64),
      .ofNat (0x80 + v % 64)] = ([Char.ofNat (a * 262144 + v)], .start) := by
  rw [run_cons, step_more_ofNat (by omega) hlo hhi]
  have h1 : v / 64 % 64 = v % 4096 / 64 := by omega
  have h2 : v % 64 = v % 4096 % 64 := by omega
  rw [h1, h2, run_two (by omega) (by show 128 ≤ _; omega) (by show _ ≤ 191; omega)]
  have : (a * 64 + v / 4096) * 4096 + v % 4096 = a * 262144 + v := by omega
  rw [this]
  rfl

lemma run_encodeChar (c : Char) : run .start (encodeChar c) = ([c], .start) := by
  have hvalid : c.toNat < 0xD800 ∨ 0xDFFF < c.toNat ∧ c.toNat < 0x110000 := c.valid
  have hc : Char.ofNat c.toNat = c := Char.ofNat_toNat c
  rw [encodeChar]
  generalize c.toNat = v at hvalid hc
  by_cases h1 : v < 0x80
  · rw [if_pos h1, run_cons, step, first_ofNat (by omega), if_pos (by omega), hc]
    rfl
  rw [if_neg h1]
  by_cases h2 : v < 0x800
  · rw [if_pos h2, run_cons, step, first_ofNat (by omega), if_neg (by omega),
      if_neg (by omega), if_pos (by omega)]
    rw [run_cons, step_more_ofNat (by omega) (by show 128 ≤ _; omega) (by show _ ≤ 191; omega)]
    have : (0xC0 + v / 64 - 0xC0) * 64 + v % 64 = v := by omega
    rw [this, hc]
    rfl
  rw [if_neg h2]
  by_cases h3 : v < 0x10000
  · have hb : v / 64 % 64 = v % 4096 / 64 := by omega
    have hb' : v % 64 = v % 4096 % 64 := by omega
    rw [if_pos h3, run_cons, step, first_ofNat (by omega), if_neg (by omega),
      if_neg (by omega), if_neg (by omega), hb, hb']
    -- the range of the second byte depends on the first
    by_cases he0 : v / 4096 = 0
    · rw [if_pos (by omega), run_two (by omega) (by show 160 ≤ _; omega) (by show _ ≤ 191; omega)]
      have : 0 * 4096 + v % 4096 = v := by omega
      rw [this, hc]
      rfl
    rw [if_neg (by omega)]
    by_cases hed : v / 4096 = 0xD
    · rw [if_pos (by omega), run_two (by omega) (by show 128 ≤ _; omega) (by show _ ≤ 159; omega)]
      have : 0xD * 4096 + v % 4096 = v := by omega
      rw [this, hc]
      rfl
    · rw [if_neg (by omega), if_pos (by omega),
        run_two (by omega) (by show 128 ≤ _; omega) (by show _ ≤ 191; omega)]
      have : (0xE0 + v / 4096 - 0xE0) * 4096 + v % 4096 = v := by omega
      rw [this, hc]
      rfl
  · have hb : v / 4096 % 64 = v % 262144 / 4096 := by omega
    have hb' : v / 64 % 64 = v % 262144 / 64 % 64 := by omega
    have hb'' : v % 64 = v % 262144 % 64 := by omega
    rw [if_neg h3, run_cons, step, first_ofNat (by omega), if_neg (by omega),
      if_neg (by omega), if_neg (by omega), if_neg (by omega), if_neg (by omega),
      if_neg (by omega), hb, hb', hb'']
    by_cases hf0 : v / 262144 = 0
    · rw [if_pos (by omega), run_three (by omega) (by show 144 ≤ _; omega) (by show _ ≤ 191; omega)]
      have : 0 * 262144 + v % 262144 = v := by omega
      rw [this, hc]
      rfl
    rw [if_neg (by omega)]
    by_cases hf4 : v / 262144 = 4
    · rw [if_pos (by omega), run_three (by omega) (by show 128 ≤ _; omega) (by show _ ≤ 143; omega)]
      have : 4 * 262144 + v % 262144 = v := by omega
      rw [this, hc]
      rfl
    · rw [if_neg (by omega), if_pos (by omega), run_three (by omega) (by show 128 ≤ _; omega)
        (by show _ ≤ 191; omega)]
      have : (0xF0 + v / 262144 - 0xF0) * 262144 + v % 262144 = v := by omega
      rw [this, hc]
      rfl

lemma decode_encode (cs : List Char) : decode (encode cs) = cs := by
  induction cs with
  | nil => rfl
  | cons c cs ih =>
    have hc := run_encodeChar c
    rw [encode, flatMap_cons, decode_append (by rw [hc]), decode, hc]
    exact congrArg (c :: ·) ih

end Lib.Utf8
