import Sglang.Lib.Words

/-!
# Keys of the radix tree (`RadixKey`)

A key is a view of an array of token ids, possibly capped, under a namespace.  Its logical units are
the tokens, or, for EAGLE, the pairs of neighbouring tokens.  The tree compares keys with
`match_at`, which gallops and then halves, and finds children by `child_key_at`, the first page of
units with its namespace; `matchAt_eq` and `childKeyAt_inj` say what both do in terms of the units.
-/

namespace Sglang.Radix
open Lib List Option

/-- `RadixKey`. -/
structure RadixKey where
  tokenIds : List Int
  extraKey : Option String
  cacheSalt : Option String
  isBigram : Bool
  limit : Option Nat
  /-- An empty salt is none. -/
  salt_ne : cacheSalt ≠ some ""
  deriving DecidableEq

/-- What the operations on keys raise. -/
inductive KeyFault
  /-- `RadixKey operations require matching extra_key`. -/
  | extraKey
  /-- `RadixKey operations require matching cache_salt`. -/
  | cacheSalt
  /-- `RadixKey operations require matching bigram modes`. -/
  | bigramModes
  /-- `RadixKey offset out of range`. -/
  | offset
  /-- `RadixKey child range out of bounds`. -/
  | childRange
  deriving DecidableEq, Repr

/-- A logical unit: a token, or a token and the next. -/
inductive KeyUnit
  | tok (t : Int)
  | pair (t t' : Int)
  deriving DecidableEq, Repr

/-- What a child key is without its namespace: a token or a tuple of them, or of pairs.  The pair of
a single bigram is a tuple of two tokens. -/
inductive Plain
  | int (t : Int)
  | ints (ts : List Int)
  | pairs (ts : List (Int × Int))
  deriving DecidableEq, Repr

/-- The hashable child keys.  Tuples of these shapes are never equal: a namespace starts with a
string or with a tuple that holds one. -/
inductive ChildKey
  | plain (units : Plain)
  | keyed (extraKey : String) (units : Plain)
  | salted (extraKey : Option String) (cacheSalt : String) (units : Plain)
  deriving DecidableEq, Repr

/-- A page of units under its namespace. -/
structure Page where
  extraKey : Option String
  cacheSalt : Option String
  units : List KeyUnit
  deriving DecidableEq

namespace RadixKey

/-- `__init__`. -/
def init (tokenIds : List Int) (extraKey : Option String) (isBigram : Bool) (limit : Option Nat)
    (cacheSalt : Option String) : RadixKey where
  tokenIds := tokenIds
  extraKey := extraKey
  cacheSalt := if cacheSalt = some "" then none else cacheSalt
  isBigram := isBigram
  limit := limit
  salt_ne := by
    split
    · exact nofun
    · assumption

variable (k : RadixKey)

/-- `_raw_len`. -/
def rawLen : Nat :=
  match k.limit with
  | some limit => if limit < k.tokenIds.length then limit else k.tokenIds.length
  | none => k.tokenIds.length

/-- `__len__`. -/
def len : Nat := if k.isBigram then k.rawLen - 1 else k.rawLen

/-- `__getitem__` with the slice `[start:stop]`. -/
def getItem (start stop : Nat) : RadixKey :=
  let start := min start k.len
  let stop := min stop k.len
  if k.isBigram then
    init (if start < stop then slice k.tokenIds start (stop + 1) else []) k.extraKey true none
      k.cacheSalt
  else init (slice k.tokenIds start stop) k.extraKey false none k.cacheSalt

/-- `key[n:]`. -/
def drop (n : Nat) : RadixKey := k.getItem n k.len

/-- `key[:n]`. -/
def take (n : Nat) : RadixKey := k.getItem 0 n

/-- `page_aligned`. -/
def pageAligned (ps : Nat) : RadixKey := if ps = 1 then k else k.take (k.len / ps * ps)

/-- `maybe_to_bigram_view`. -/
def maybeToBigramView {α : Type} (isEagle : Bool) (value : Option (List α)) :
    RadixKey × Option (List α) :=
  if isEagle && !k.isBigram then
    let k := { k with isBigram := true }
    (k, value.map fun v => v.take k.len)
  else (k, value)

/-- `_check_compatible`. -/
def checkCompatible (other : RadixKey) : Except KeyFault Unit :=
  if k.extraKey ≠ other.extraKey then .error .extraKey
  else if k.cacheSalt ≠ other.cacheSalt then .error .cacheSalt
  else .ok ()

/-- The search in a window that holds the first difference. -/
def narrow (t₀ t₁ : List Int) (offset : Nat) : Nat → Nat → Nat → Nat
  | 0, lo, _ => lo
  | fuel + 1, lo, hi =>
    if 1 < hi - lo then
      let mid := (lo + hi) / 2
      if slice t₀ lo mid = slice t₁ (offset + lo) (offset + mid) then
        narrow t₀ t₁ offset fuel mid hi
      else narrow t₀ t₁ offset fuel lo mid
    else lo

/-- The windows, each twice as long as the one before. -/
def gallop (t₀ t₁ : List Int) (offset n : Nat) : Nat → Nat → Nat → Nat
  | 0, lo, _ => lo
  | fuel + 1, lo, step =>
    if lo < n then
      let hi := if lo + step < n then lo + step else n
      if slice t₀ lo hi ≠ slice t₁ (offset + lo) (offset + hi) then
        narrow t₀ t₁ offset (hi - lo) lo hi
      else gallop t₀ t₁ offset n fuel hi (step * 2)
    else n

/-- `match_at`. -/
def matchAt (other : RadixKey) (offset ps : Nat) : Except KeyFault Nat :=
  k.checkCompatible other >>= fun _ =>
  if k.isBigram ≠ other.isBigram then .error .bigramModes
  else if other.len < offset then .error .offset
  else
    let n := min k.rawLen (other.rawLen - offset)
    let matchedTokens := gallop k.tokenIds other.tokenIds offset n (n + 1) 0 1
    if k.isBigram then
      let matched := min (matchedTokens - 1) (min k.len (other.len - offset))
      .ok (if 1 < ps then matched / ps * ps else matched)
    else
      let matchedTokens := min matchedTokens (min k.len (other.len - offset))
      .ok (if ps = 1 then matchedTokens else matchedTokens / ps * ps)

/-- `match`. -/
def matchLen (other : RadixKey) (ps : Nat) : Except KeyFault Nat := k.matchAt other 0 ps

/-- The units of a child key. -/
def plainAt (offset ps : Nat) : Plain :=
  let t := fun i => k.tokenIds.getD i 0
  if k.isBigram then
    if ps = 1 then .ints [t offset, t (offset + 1)]
    else .pairs ((range' offset ps).map fun j => (t j, t (j + 1)))
  else if ps = 1 then .int (t offset)
  else .ints (slice k.tokenIds offset (offset + ps))

/-- `child_key_at`. -/
def childKeyAt (offset ps : Nat) : Except KeyFault ChildKey :=
  if k.len < offset + ps then .error .childRange
  else .ok (match k.cacheSalt with
    | some salt => .salted k.extraKey salt (k.plainAt offset ps)
    | none => match k.extraKey with
      | none => .plain (k.plainAt offset ps)
      | some extraKey => .keyed extraKey (k.plainAt offset ps))

/-- `child_key`. -/
def childKey (ps : Nat) : Except KeyFault ChildKey := k.childKeyAt 0 ps

/-! ## Units -/

/-- The tokens the key shows. -/
def raw : List Int := k.tokenIds.take k.rawLen

/-- Neighbouring tokens. -/
def bigrams (ts : List Int) : List KeyUnit := zipWith .pair ts ts.tail

/-- The units of the key, as `__iter__` yields them. -/
def units : List KeyUnit := if k.isBigram then bigrams k.raw else k.raw.map .tok

/-- One namespace, for the tree. -/
def SameSpace (k k' : RadixKey) : Prop :=
  k.extraKey = k'.extraKey ∧ k.cacheSalt = k'.cacheSalt ∧ k.isBigram = k'.isBigram

variable {k} {k' : RadixKey} {offset ps : Nat}

lemma rawLen_le (k : RadixKey) : k.rawLen ≤ k.tokenIds.length := by
  grind [rawLen]

lemma length_raw (k : RadixKey) : k.raw.length = k.rawLen := by
  rw [raw, length_take, min_eq_left k.rawLen_le]

lemma length_bigrams (ts : List Int) : (bigrams ts).length = ts.length - 1 := by
  simp [bigrams]

lemma length_units (k : RadixKey) : k.units.length = k.len := by
  rw [units, len]
  split
  · rw [length_bigrams, length_raw]
  · rw [length_map, length_raw]

variable {i : Nat}

lemma getElem?_raw (hi : i < k.rawLen) : k.raw[i]? = some (k.tokenIds.getD i 0) := by
  grind [k.rawLen_le, raw]

/-! ## Slices -/

variable {ts : List Int}

lemma getElem?_bigrams (hi : i + 1 < ts.length) :
    (bigrams ts)[i]? = some (.pair (ts.getD i 0) (ts.getD (i + 1) 0)) := by
  rw [bigrams, getElem?_zipWith, getElem?_tail, getElem?_eq_getElem hi,
    getElem?_eq_getElem (Nat.lt_of_succ_lt hi), getD_eq_getElem?_getD,
    getD_eq_getElem?_getD, getElem?_eq_getElem hi, getElem?_eq_getElem (Nat.lt_of_succ_lt hi)]
  rfl

variable {start stop : Nat}

lemma bigrams_slice (hstop : stop < ts.length) :
    bigrams (slice ts start (stop + 1)) = slice (bigrams ts) start stop := by
  refine ext_getElem? fun i => ?_
  have hlen : (bigrams (slice ts start (stop + 1))).length = stop - start := by
    rw [length_bigrams, length_slice]
    omega
  rcases Nat.lt_or_ge (start + i) stop with hi | hi
  · rw [getElem?_slice hi, getElem?_bigrams (by rw [length_slice]; omega),
      getElem?_bigrams (by omega), getD_eq_getElem?_getD, getD_eq_getElem?_getD, getElem?_slice (by omega),
      getElem?_slice (by omega), ← getD_eq_getElem?_getD, ← getD_eq_getElem?_getD]
    rfl
  · rw [getElem?_eq_none (by omega), getElem?_eq_none (by
      rw [length_slice, length_bigrams]
      omega)]

@[simp] lemma raw_init (ts : List Int) (x : Option String) (b : Bool) (s : Option String) :
    (init ts x b none s).raw = ts := take_length

lemma slice_raw (h : stop ≤ k.rawLen) : slice k.raw start stop = slice k.tokenIds start stop := by
  rw [slice, slice, raw, take_take, min_eq_left h]

lemma units_init (ts : List Int) (x : Option String) (b : Bool) (s : Option String) :
    (init ts x b none s).units = if b then bigrams ts else ts.map .tok := by
  rw [units, raw_init]
  rfl

lemma units_getItem (k : RadixKey) (start stop : Nat) :
    (k.getItem start stop).units = slice k.units start stop := by
  have hlen := k.length_raw
  rw [← slice_min k.units, length_units, getItem]
  cases hb : k.isBigram with
  | true =>
    have hl : k.len = k.rawLen - 1 := if_pos hb
    rw [if_pos rfl, units_init, if_pos rfl, units, if_pos hb]
    split
    · rename_i hlt
      rw [← slice_raw (by omega), bigrams_slice (by omega)]
    · rename_i hge
      rw [slice_eq_nil (Nat.le_of_not_lt hge)]
      rfl
  | false =>
    have hl : k.len = k.rawLen := if_neg (by simp [hb])
    rw [if_neg (by simp), units_init, if_neg (by simp), units, if_neg (by simp [hb]), slice_map,
      slice_raw (by omega)]

lemma getItem_sameSpace (k : RadixKey) (start stop : Nat) :
    SameSpace (k.getItem start stop) k := by
  have hsalt : (if k.cacheSalt = some "" then none else k.cacheSalt) = k.cacheSalt :=
    if_neg k.salt_ne
  rw [getItem]
  cases hb : k.isBigram with
  | true => exact ⟨rfl, hsalt, hb.symm⟩
  | false => exact ⟨rfl, hsalt, hb.symm⟩

lemma units_drop (k : RadixKey) (n : Nat) : (k.drop n).units = k.units.drop n := by
  rw [drop, units_getItem, slice, ← length_units, take_length]

lemma units_take (k : RadixKey) (n : Nat) : (k.take n).units = k.units.take n := by
  rw [take, units_getItem, slice, drop_zero]

/-! ## `match_at` -/

section
variable {t₀ t₁ : List Int} {n : Nat}

/-- Where a search may stop: all is equal before, and what comes next differs. -/
def IsSplit (t₀ t₁ : List Int) (offset lo hi r : Nat) : Prop :=
  lo ≤ r ∧ r < hi ∧ (∀ i, lo ≤ i → i < r → t₀[i]? = t₁[offset + i]?) ∧ t₀[r]? ≠ t₁[offset + r]?

lemma isSplit_narrow (hn : n ≤ t₀.length) (hn' : offset + n ≤ t₁.length) :
    ∀ {fuel lo hi}, hi - lo ≤ fuel → hi ≤ n →
      slice t₀ lo hi ≠ slice t₁ (offset + lo) (offset + hi) →
      IsSplit t₀ t₁ offset lo hi (narrow t₀ t₁ offset fuel lo hi)
  | 0, lo, hi, hfuel, hhi, hne => by
    rw [slice_eq_nil (by omega), slice_eq_nil (by omega)] at hne
    exact absurd rfl hne
  | fuel + 1, lo, hi, hfuel, hhi, hne => by
    have hlt : lo < hi := Nat.lt_of_not_le fun hle => by
      rw [slice_eq_nil hle, slice_eq_nil (by omega)] at hne
      exact absurd rfl hne
    rw [narrow]
    split
    · have hmid : lo < (lo + hi) / 2 ∧ (lo + hi) / 2 < hi := by omega
      generalize (lo + hi) / 2 = mid at hmid
      simp only
      split
      · rename_i hsame
        have hsame := slice_eq_slice_iff.1 hsame
        have hne' : slice t₀ mid hi ≠ slice t₁ (offset + mid) (offset + hi) := fun heq => by
          have heq := slice_eq_slice_iff.1 heq
          refine hne (slice_eq_slice_iff.2 fun i hlo hi => ?_)
          rcases Nat.lt_or_ge i mid with him | him
          · exact hsame i hlo him
          · exact heq i him hi
        obtain ⟨hle, hrt, heq, hdiff⟩ := isSplit_narrow hn hn'
          (show hi - mid ≤ fuel by omega) hhi hne'
        refine ⟨by omega, hrt, fun i hlo hi => ?_, hdiff⟩
        rcases Nat.lt_or_ge i mid with him | him
        · exact hsame i hlo him
        · exact heq i him hi
      · rename_i hne'
        obtain ⟨hle, hrt, hrest⟩ := isSplit_narrow hn hn' (show mid - lo ≤ fuel by omega)
          (by omega) hne'
        exact ⟨hle, by omega, hrest⟩
    · obtain rfl : hi = lo + 1 := by omega
      refine ⟨le_refl _, by omega, fun i hlo hi => by omega, fun heq => hne ?_⟩
      refine slice_eq_slice_iff.2 fun i hlo hi => ?_
      obtain rfl : i = lo := by omega
      exact heq

lemma gallop_spec (hn : n ≤ t₀.length) (hn' : offset + n ≤ t₁.length) :
    ∀ {fuel lo step}, n - lo < fuel → lo ≤ n → 0 < step → (∀ i < lo, t₀[i]? = t₁[offset + i]?) →
      let r := gallop t₀ t₁ offset n fuel lo step
      r ≤ n ∧ (∀ i < r, t₀[i]? = t₁[offset + i]?) ∧ (r < n → t₀[r]? ≠ t₁[offset + r]?)
  | 0, lo, step, hfuel, _, _, _ => absurd hfuel (Nat.not_lt_zero _)
  | fuel + 1, lo, step, hfuel, hlo, hstep, hsame => by
    rw [gallop]
    split
    · have hhi : lo < (if lo + step < n then lo + step else n) ∧
          (if lo + step < n then lo + step else n) ≤ n := by
        split <;> omega
      generalize (if lo + step < n then lo + step else n) = hi at hhi
      simp only
      split
      · rename_i hne
        obtain ⟨hle, hrt, heq, hdiff⟩ := isSplit_narrow hn hn' (le_refl _) hhi.2 hne
        refine ⟨by omega, fun i hi => ?_, fun _ => hdiff⟩
        rcases Nat.lt_or_ge i lo with hil | hil
        · exact hsame i hil
        · exact heq i hil hi
      · rename_i heq
        have heq := slice_eq_slice_iff.1 (Decidable.not_not.1 heq)
        refine gallop_spec hn hn' (by omega) hhi.2 (by omega) fun i hi => ?_
        rcases Nat.lt_or_ge i lo with hil | hil
        · exact hsame i hil
        · exact heq i hil hi
    · obtain rfl : lo = n := by omega
      exact ⟨le_refl _, hsame, fun hlt => absurd hlt (lt_irrefl _)⟩

lemma gallop_eq (hoff : offset ≤ k'.rawLen) :
    gallop k.tokenIds k'.tokenIds offset (min k.rawLen (k'.rawLen - offset))
        (min k.rawLen (k'.rawLen - offset) + 1) 0 1 =
      commonLen k.raw (k'.raw.drop offset) := by
  have hk := k.rawLen_le
  have hk' := k'.rawLen_le
  have hn : min k.rawLen (k'.rawLen - offset) ≤ k.tokenIds.length := by omega
  have hn' : offset + min k.rawLen (k'.rawLen - offset) ≤ k'.tokenIds.length := by omega
  obtain ⟨hle, hsame, hdiff⟩ := gallop_spec hn hn' (Nat.lt_succ_of_le (Nat.sub_le _ 0))
    (Nat.zero_le _) Nat.one_pos nofun
  generalize gallop _ _ _ _ _ _ _ = r at *
  have hat : ∀ i < min k.rawLen (k'.rawLen - offset), k.raw[i]? = k.tokenIds[i]? ∧
      (k'.raw.drop offset)[i]? = k'.tokenIds[offset + i]? := fun i hi => by
    rw [getElem?_drop, raw, raw, getElem?_take_of_lt (by omega), getElem?_take_of_lt (by omega)]
    exact ⟨rfl, rfl⟩
  refine (commonLen_eq ?_ ?_ (fun i hi => ?_) fun hl hm => ?_).symm
  · rw [length_raw]
    omega
  · rw [length_drop, length_raw]
    omega
  · grind
  · rw [length_raw] at hl
    rw [length_drop, length_raw] at hm
    rw [(hat r (by omega)).1, (hat r (by omega)).2]
    exact hdiff (by omega)

end

/-- Two words with a token less in common. -/
lemma commonLen_bigrams : ∀ l m, commonLen (bigrams l) (bigrams m) = commonLen l m - 1
  | [], _ => by simp [bigrams, commonLen]
  | _ :: _, [] => by simp [bigrams, commonLen]
  | [a], c :: m => by
    show 0 = (if a = c then 0 + 1 else 0) - 1
    split <;> rfl
  | a :: b :: l, [c] => by
    show 0 = (if a = c then commonLen (b :: l) [] + 1 else 0) - 1
    split <;> rfl
  | a :: b :: l, c :: d :: m => by
    have ih := commonLen_bigrams (b :: l) (d :: m)
    show (if KeyUnit.pair a b = .pair c d then
      commonLen (bigrams (b :: l)) (bigrams (d :: m)) + 1 else 0) =
        (if a = c then commonLen (b :: l) (d :: m) + 1 else 0) - 1
    rw [ih]
    by_cases hac : a = c
    · by_cases hbd : b = d
      · rw [if_pos (KeyUnit.pair.injEq .. ▸ ⟨hac, hbd⟩), if_pos hac, commonLen, if_pos hbd]
        omega
      · rw [if_neg fun h => hbd (KeyUnit.pair.inj h).2, if_pos hac, commonLen, if_neg hbd]
    · rw [if_neg fun h => hac (KeyUnit.pair.inj h).1, if_neg hac]

lemma bigrams_drop : ∀ (ts : List Int) (n : Nat), bigrams (ts.drop n) = (bigrams ts).drop n
  | ts, 0 => by rw [drop_zero, drop_zero]
  | [], n + 1 => by simp [bigrams]
  | [a], n + 1 => by simp [bigrams]
  | a :: b :: ts, n + 1 => by
    rw [drop_succ_cons, bigrams_drop (b :: ts) n]
    rfl

/-- **`match_at` counts the units in common**, rounded down to pages. -/
theorem matchAt_eq (hps : 0 < ps) (hspace : SameSpace k k') (hoff : offset ≤ k'.len) :
    k.matchAt k' offset ps = .ok (commonLen k.units (k'.units.drop offset) / ps * ps) := by
  obtain ⟨hx, hs, hb⟩ := hspace
  have hlen : commonLen k.units (k'.units.drop offset) ≤ min k.len (k'.len - offset) := by
    refine Nat.le_min.2 ⟨?_, ?_⟩
    · exact (commonLen_le_left _ _).trans_eq k.length_units
    · exact (commonLen_le_right _ _).trans_eq (by rw [length_drop, length_units])
  have hraw : offset ≤ k'.rawLen := by
    rw [len] at hoff
    split at hoff <;> omega
  rw [matchAt, checkCompatible, if_neg (not_not.2 hx), if_neg (not_not.2 hs)]
  show (if k.isBigram ≠ k'.isBigram then _ else _) = _
  rw [if_neg (not_not.2 hb), if_neg (not_lt.2 hoff)]
  simp only [gallop_eq hraw]
  cases hbk : k.isBigram with
  | true =>
    grind [units, bigrams_drop, commonLen_bigrams]
  | false =>
    simp_all [units, ← map_drop, commonLen_map (fun a b h => KeyUnit.tok.inj h)]

lemma len_drop (k : RadixKey) (n : Nat) : (k.drop n).len = k.len - n := by
  rw [← length_units, units_drop, length_drop, length_units]

/-- **What `match_at` returns and raises**, and that equal pages can be taken off both keys. -/
theorem matchAt_counts (hps : 0 < ps) (k k' : RadixKey) (offset : Nat) :
    (k.matchAt k' offset ps = if k.extraKey ≠ k'.extraKey then .error .extraKey
      else if k.cacheSalt ≠ k'.cacheSalt then .error .cacheSalt
      else if k.isBigram ≠ k'.isBigram then .error .bigramModes
      else if k'.len < offset then .error .offset
      else .ok (commonLen k.units (k'.units.drop offset) / ps * ps)) ∧
    (SameSpace k k' → offset ≤ k'.len → ∀ a, ps ∣ a → a ≤ commonLen k.units (k'.units.drop offset) →
      k.matchAt k' offset ps = ((k.drop a).matchAt (k'.drop a) offset ps).map (a + ·)) := by
  constructor
  · by_cases hx : k.extraKey = k'.extraKey
    · by_cases hs : k.cacheSalt = k'.cacheSalt
      · by_cases hb : k.isBigram = k'.isBigram
        · rcases Nat.lt_or_ge k'.len offset with hoff | hoff
          · simp [matchAt, checkCompatible, hx, hs, hb, hoff, bind, Except.bind]
          · rw [matchAt_eq hps ⟨hx, hs, hb⟩ hoff]
            simp [hx, hs, hb, Nat.not_lt.2 hoff]
        · simp [matchAt, checkCompatible, hx, hs, hb, bind, Except.bind]
      · simp [matchAt, checkCompatible, hx, hs, bind, Except.bind]
    · simp [matchAt, checkCompatible, hx, bind, Except.bind]
  · rintro hspace hoff _ ⟨q, rfl⟩ ha
    have hle := commonLen_le_right k.units (k'.units.drop offset)
    rw [length_drop, length_units] at hle
    have hspace' : SameSpace (k.drop (ps * q)) (k'.drop (ps * q)) := by
      obtain ⟨hx, hs, hb⟩ := k.getItem_sameSpace (ps * q) k.len
      obtain ⟨hx', hs', hb'⟩ := k'.getItem_sameSpace (ps * q) k'.len
      exact ⟨hx.trans (hspace.1.trans hx'.symm), hs.trans (hspace.2.1.trans hs'.symm),
        hb.trans (hspace.2.2.trans hb'.symm)⟩
    rw [matchAt_eq hps hspace hoff, matchAt_eq hps hspace' (by rw [len_drop]; omega), units_drop,
      units_drop, drop_drop, Nat.add_comm, ← drop_drop, ← commonLen_drop ha]
    simp only [Except.map, Nat.mul_add_div hps, Nat.add_mul, Nat.mul_comm q]

/-- Bigrams of `1 2 3 4` and `0 1 2 3 5` from offset `1`, in pages of two, and without the first. -/
theorem matchAt_counts_bigrams :
    (init [1, 2, 3, 4] none true none none).matchAt (init [0, 1, 2, 3, 5] none true none none) 1 2 =
      .ok 2 ∧
    (.ok 2 : Except KeyFault Nat) = (((init [1, 2, 3, 4] none true none none).drop 2).matchAt
      ((init [0, 1, 2, 3, 5] none true none none).drop 2) 1 2).map (2 + ·) :=
  ⟨(matchAt_counts Nat.two_pos _ _ 1).1,
    (matchAt_counts Nat.two_pos (init [1, 2, 3, 4] none true none none)
      (init [0, 1, 2, 3, 5] none true none none) 1).2 ⟨rfl, rfl, rfl⟩ (by decide) 2 (by decide)
      (by decide)⟩

/-- Keys of two namespaces are refused. -/
theorem matchAt_raises :
    (init [1] (some "a") false none none).matchAt (init [1] none false none none) 0 1 =
      .error .extraKey :=
  rfl

/-! ## Child keys -/

lemma childKey_ok (h : ps ≤ k.len) : ∃ ck, k.childKey ps = .ok ck :=
  ⟨_, if_neg (by omega)⟩

lemma page_tok (hb : k.isBigram = false) (h : offset + ps ≤ k.len) :
    (k.units.drop offset).take ps = (slice k.tokenIds offset (offset + ps)).map .tok := by
  have hl : k.len = k.rawLen := if_neg (by simp [hb])
  rw [units, if_neg (by simp [hb]), ← map_drop, ← map_take, ← slice_raw (by omega), slice,
    drop_take, Nat.add_sub_cancel_left]

lemma page_pair (hb : k.isBigram = true) (h : offset + ps ≤ k.len) :
    (k.units.drop offset).take ps = (range' offset ps).map fun j =>
      .pair (k.tokenIds.getD j 0) (k.tokenIds.getD (j + 1) 0) := by
  have hl : k.len = k.rawLen - 1 := if_pos hb
  refine ext_getElem? fun i => ?_
  rw [getElem?_map]
  rcases Nat.lt_or_ge i ps with hi | hi
  · have hget : ∀ j, j < k.rawLen → k.raw.getD j 0 = k.tokenIds.getD j 0 := fun j hj => by
      rw [getD_eq_getElem?_getD, getElem?_raw hj, getD_some]
    rw [getElem?_take_of_lt hi, getElem?_drop, units, if_pos hb,
      getElem?_bigrams (by rw [length_raw]; omega), getElem?_range' hi,
      hget _ (by omega), hget _ (by omega), Nat.one_mul]
    rfl
  · grind

variable {offset' : Nat}

/-- A unit of one kind is none of the other. -/
lemma page_ne (hps : 0 < ps) {offset : Nat} (hb : k.isBigram = false) (hb' : k'.isBigram = true)
    (h : offset + ps ≤ k.len) (h' : offset' + ps ≤ k'.len) :
    (k.units.drop offset).take ps ≠ (k'.units.drop offset').take ps := by
  have hl : k.len = k.rawLen := if_neg (by simp [hb])
  have hraw := k.rawLen_le
  rw [page_tok hb h, page_pair hb' h']
  intro heq
  have hzero := congrArg (fun l : List KeyUnit => l[0]?) heq
  simp only [getElem?_map, getElem?_range' hps] at hzero
  rw [getElem?_slice (by omega), getElem?_eq_getElem (by omega), map_some,
    map_some, some_inj] at hzero
  cases hzero

/-- **The units of a child key are the first page of units.** -/
theorem plainAt_inj (hps : 0 < ps) (h : offset + ps ≤ k.len) (h' : offset' + ps ≤ k'.len) :
    k.plainAt offset ps = k'.plainAt offset' ps ↔
      (k.units.drop offset).take ps = (k'.units.drop offset').take ps := by
  rw [plainAt, plainAt]
  by_cases hone : ps = 1
  · subst hone
    cases hb : k.isBigram <;> cases hb' : k'.isBigram
    all_goals simp only [Bool.false_eq_true, if_true, if_false]
    · have hl : k.len = k.rawLen := if_neg (by simp [hb])
      have hl' : k'.len = k'.rawLen := if_neg (by simp [hb'])
      have hraw := k.rawLen_le
      have hraw' := k'.rawLen_le
      rw [page_tok hb h, page_tok hb' h', slice_one (by omega) 0, slice_one (by omega) 0]
      simp
    · simpa using page_ne hps hb hb' h h'
    · simpa using (page_ne hps hb' hb h' h).symm
    · rw [page_pair hb h, page_pair hb' h']
      simp
  · simp only [if_neg hone]
    cases hb : k.isBigram <;> cases hb' : k'.isBigram
    all_goals simp only [Bool.false_eq_true, if_true, if_false]
    · grind [page_tok, List.map_inj_right]
    · simpa using page_ne hps hb hb' h h'
    · simpa using (page_ne hps hb' hb h' h).symm
    · have hmap : ∀ t : Nat → Int, ∀ o, ((range' o ps).map fun j =>
          KeyUnit.pair (t j) (t (j + 1))) =
            ((range' o ps).map fun j => (t j, t (j + 1))).map fun p => .pair p.1 p.2 :=
        fun t o => by rw [List.map_map]; rfl
      rw [page_pair hb h, page_pair hb' h', hmap (fun j => k.tokenIds.getD j 0),
        hmap (fun j => k'.tokenIds.getD j 0), List.map_inj_right, Plain.pairs.injEq]
      rintro ⟨a, b⟩ ⟨c, d⟩ he
      obtain ⟨rfl, rfl⟩ := KeyUnit.pair.inj he
      rfl

/-- **Child keys are equal when namespace and page are.** -/
theorem childKeyAt_inj (hps : 0 < ps) (h : offset + ps ≤ k.len) (h' : offset' + ps ≤ k'.len) :
    k.childKeyAt offset ps = k'.childKeyAt offset' ps ↔
      k.extraKey = k'.extraKey ∧ k.cacheSalt = k'.cacheSalt ∧
        (k.units.drop offset).take ps = (k'.units.drop offset').take ps := by
  rw [← plainAt_inj hps h h', childKeyAt, childKeyAt, if_neg (not_lt.2 h),
    if_neg (not_lt.2 h'), Except.ok.injEq]
  cases hs : k.cacheSalt <;> cases hs' : k'.cacheSalt <;> cases hx : k.extraKey <;>
    cases hx' : k'.extraKey <;> simp

/-! ## Pages -/

/-- The pages of the key, each under the namespace: what the tree sees of it. -/
def pages (k : RadixKey) (ps : Nat) : List Page :=
  (chunks ps k.units).map (Page.mk k.extraKey k.cacheSalt)

lemma length_pages (k : RadixKey) (ps : Nat) : (k.pages ps).length = k.len / ps := by
  rw [pages, length_map, length_chunks, length_units]

lemma pages_drop (k : RadixKey) (ps n : Nat) :
    (k.drop (n * ps)).pages ps = (k.pages ps).drop n := by
  obtain ⟨hx, hs, -⟩ : SameSpace (k.drop (n * ps)) k := k.getItem_sameSpace _ _
  rw [pages, units_drop, chunks_drop, hx, hs, pages, map_drop]

lemma pages_take (hps : 0 < ps) (k : RadixKey) (n : Nat) :
    (k.take (n * ps)).pages ps = (k.pages ps).take n := by
  obtain ⟨hx, hs, -⟩ : SameSpace (k.take (n * ps)) k := k.getItem_sameSpace _ _
  rw [pages, units_take, chunks_take hps, hx, hs, pages, map_take]

lemma head?_pages (hps : 0 < ps) (h : ps ≤ k.len) :
    (k.pages ps).head? = some ⟨k.extraKey, k.cacheSalt, k.units.take ps⟩ := by
  have hlt : 0 < k.units.length / ps := Nat.div_pos (k.length_units.symm ▸ h) hps
  rw [pages, head?_map, head?_eq_getElem?, getElem?_chunks hlt, Nat.zero_mul, drop_zero, map_some]

/-- Children are found by their first page. -/
lemma childKey_inj (hps : 0 < ps) (h : ps ≤ k.len) (h' : ps ≤ k'.len) :
    k.childKey ps = k'.childKey ps ↔ (k.pages ps).head? = (k'.pages ps).head? := by
  rw [childKey, childKey, childKeyAt_inj hps (by omega) (by omega), head?_pages hps h,
    head?_pages hps h', some_inj, Page.mk.injEq, drop_zero, drop_zero]

/-- A common first page is one of the same namespace, in the same units. -/
lemma sameSpace_of_head? (hps : 0 < ps) (h : ps ≤ k.len) (h' : ps ≤ k'.len)
    (heq : (k.pages ps).head? = (k'.pages ps).head?) : SameSpace k k' := by
  rw [head?_pages hps h, head?_pages hps h', some_inj, Page.mk.injEq] at heq
  obtain ⟨hx, hs, hu⟩ := heq
  refine ⟨hx, hs, ?_⟩
  have h0 : 0 + ps ≤ k.len := by omega
  have h0' : 0 + ps ≤ k'.len := by omega
  cases hb : k.isBigram <;> cases hb' : k'.isBigram
  · rfl
  · exact absurd hu (page_ne hps hb hb' h0 h0')
  · exact absurd hu.symm (page_ne hps hb' hb h0' h0)
  · rfl

/-- **`match` counts the pages in common.** -/
theorem matchLen_eq (hps : 0 < ps) (hspace : SameSpace k k') :
    k.matchLen k' ps = .ok (commonLen (k.pages ps) (k'.pages ps) * ps) := by
  have hinj : Function.Injective (Page.mk k.extraKey k.cacheSalt) := fun _ _ he =>
    (Page.mk.injEq .. ▸ he : _ ∧ _ ∧ _).2.2
  rw [matchLen, matchAt_eq hps hspace (Nat.zero_le _), drop_zero, pages, pages, ← hspace.1,
    ← hspace.2.1, commonLen_map hinj, commonLen_chunks hps]

end RadixKey
end Sglang.Radix
