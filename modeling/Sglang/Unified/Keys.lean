import Mathlib.Tactic
import Sglang.Lib.Runs

/-!
# Storage keys

The page hashes of `mem_cache/utils.py`: each page is hashed after the digest of the page before it,
and a chain begins with the seed of its namespace, if it has one.  `digest` stands for SHA-256 of an
optional earlier digest followed by bytes, a page is the 32-bit words it is hashed as.

A chain names its namespace and all its pages when the digest is injective, unless the words of a
page read as the bytes that a namespace is hashed as (`chained_inj`).
-/

namespace Sglang.Unified
open List

section

/-- The lowest `k` bytes of a number, lowest first. -/
def leBytes : ℕ → ℕ → List ℕ
  | 0, _ => []
  | k + 1, n => n % 256 :: leBytes k (n / 256)

/-- A page as it is hashed: its tokens, or the two tokens of each of its units in bigram mode. -/
structure Page (w : ℕ) where
  words : List ℕ
  length_words : words.length = w
  lt : ∀ t ∈ words, t < 2 ^ 32
  deriving DecidableEq

/-- The UTF-8 bytes of a string; eight bytes hold their number. -/
structure Text where
  bytes : List ℕ
  lt : bytes.length < 2 ^ 64
  deriving DecidableEq

structure Namespace where
  extraKey : Option Text
  cacheSalt : Option Text
  deriving DecidableEq

variable {w : ℕ} {H : Type} (digest : Option H → List ℕ → H)

def Page.bytes (p : Page w) : List ℕ := p.words.flatMap (leBytes 4)

/-- `b"sglang-cache-namespace-v1"` -/
def seedTag : List ℕ :=
  ['s', 'g', 'l', 'a', 'n', 'g', '-', 'c', 'a', 'c', 'h', 'e', '-', 'n', 'a', 'm', 'e', 's', 'p',
    'a', 'c', 'e', '-', 'v', '1'].map Char.toNat

def seedPart : Option Text → List ℕ
  | none => [0]
  | some part => 1 :: (leBytes 8 part.bytes.length ++ part.bytes)

def Namespace.bytes (ns : Namespace) : List ℕ :=
  seedTag ++ (seedPart ns.extraKey ++ seedPart ns.cacheSalt)

/-- `storage_namespace_seed` -/
def storageNamespaceSeed (ns : Namespace) : Option H :=
  if ns.extraKey = none ∧ ns.cacheSalt = none then none else some (digest none ns.bytes)

/-- `get_hash_str` by pages. -/
def getHashStr : Option H → List (Page w) → List H
  | _, [] => []
  | prior, p :: ps => digest prior p.bytes :: getHashStr (some (digest prior p.bytes)) ps

/-- `get_storage_hash_str` -/
def getStorageHashStr (ns : Namespace) (prior : Option H) (pages : List (Page w)) : List H :=
  getHashStr digest (prior.or (storageNamespaceSeed digest ns)) pages

/-- The digest that hashing the pages one after another ends with. -/
def chained (prior : Option H) (pages : List (Page w)) : Option H :=
  pages.foldl (fun h p => some (digest h p.bytes)) prior

/-! ## Chains -/

variable {digest} {prior : Option H} {a b : List (Page w)} {m n i k : ℕ} {ns ns' : Namespace}

/-- A chain can be continued from the digest of its first part. -/
lemma chained_append :
    chained digest prior (a ++ b) = chained digest (chained digest prior a) b :=
  foldl_append

@[simp]
lemma length_getHashStr : ∀ {prior} {a : List (Page w)},
    (getHashStr digest prior a).length = a.length
  | _, [] => rfl
  | _, _ :: ps => congrArg (· + 1) (length_getHashStr (a := ps))

/-- The hashes of a prefix are the first hashes: this is why the upper half of a split node keeps
its own. -/
lemma getHashStr_take : ∀ {prior} {a : List (Page w)} {m : ℕ},
    getHashStr digest prior (a.take m) = (getHashStr digest prior a).take m
  | _, _, 0 => by simp [getHashStr]
  | _, [], _ + 1 => rfl
  | _, _ :: ps, _ + 1 => congrArg (_ :: ·) (getHashStr_take (a := ps))

/-- The hashes of the rest, continued from the prefix, are the last hashes. -/
lemma getHashStr_drop : ∀ {prior} {a : List (Page w)} {m : ℕ},
    getHashStr digest (chained digest prior (a.take m)) (a.drop m) =
      (getHashStr digest prior a).drop m
  | _, _, 0 => by simp [chained]
  | _, [], _ + 1 => rfl
  | _, _ :: ps, _ + 1 => getHashStr_drop (a := ps)

/-- The `i`-th hash is that of the chain up to its page. -/
lemma getElem?_getHashStr : ∀ {prior} {a : List (Page w)} {i : ℕ},
    i < a.length →
    (getHashStr digest prior a)[i]? = chained digest prior (a.take (i + 1))
  | _, _ :: _, 0, _ => rfl
  | _, _ :: ps, _ + 1, h => getElem?_getHashStr (a := ps) (Nat.lt_of_succ_lt_succ h)

/-- The last hash of a node is what its children are chained to. -/
lemma getLast?_getHashStr (h : a ≠ []) :
    (getHashStr digest prior a).getLast? = chained digest prior a := by
  have hpos := length_pos_iff.2 h
  rw [getLast?_eq_getElem?, length_getHashStr, getElem?_getHashStr (by omega),
    Nat.sub_add_cancel hpos, take_length]

/-! ## What a chain names -/

@[simp]
lemma length_leBytes : ∀ {k n}, (leBytes k n).length = k
  | 0, _ => rfl
  | k + 1, _ => congrArg (· + 1) (length_leBytes (k := k))

/-- Numbers that fit their bytes can be read back. -/
lemma leBytes_inj : ∀ {k m n}, m < 256 ^ k → n < 256 ^ k → leBytes k m = leBytes k n → m = n
  | 0, m, n, hm, hn, _ => by omega
  | k + 1, m, n, hm, hn, h => by
    simp only [leBytes, List.cons.injEq] at h
    have := leBytes_inj (Nat.div_lt_of_lt_mul (by omega)) (Nat.div_lt_of_lt_mul (by omega)) h.2
    omega

lemma flatMap_leBytes_inj : ∀ {l l' : List ℕ}, l.length = l'.length → (∀ t ∈ l, t < 2 ^ 32) →
    (∀ t ∈ l', t < 2 ^ 32) → l.flatMap (leBytes 4) = l'.flatMap (leBytes 4) → l = l'
  | [], [], _, _, _, _ => rfl
  | t :: l, t' :: l', hlen, hl, hl', h => by
    obtain ⟨ht, h⟩ := append_inj h (by simp)
    rw [leBytes_inj (hl t (by simp)) (hl' t' (by simp)) ht,
      flatMap_leBytes_inj (by simpa using hlen) (by grind) (by grind) h]

lemma Page.bytes_inj {p q : Page w} (h : p.bytes = q.bytes) : p = q := by
  obtain ⟨l, hl, hlt⟩ := p
  obtain ⟨l', hl', hlt'⟩ := q
  cases flatMap_leBytes_inj (hl.trans hl'.symm) hlt hlt' h
  rfl

/-- A part can be told from what follows it. -/
lemma seedPart_append_inj {s t : Option Text} {x y : List ℕ}
    (h : seedPart s ++ x = seedPart t ++ y) : s = t ∧ x = y := by
  cases s with
  | none => cases t <;> simp_all [seedPart]
  | some s =>
    cases t with
    | none => simp [seedPart] at h
    | some t =>
      simp only [seedPart, cons_append, append_assoc, List.cons.injEq, true_and] at h
      obtain ⟨hlen, h⟩ := append_inj h (by simp)
      obtain ⟨hb, h⟩ := append_inj h (leBytes_inj s.lt t.lt hlen)
      exact ⟨congrArg some (by cases s; cases t; simp_all), h⟩

/-- The presence and length bytes keep the parts of a namespace apart. -/
lemma Namespace.bytes_inj (h : ns.bytes = ns'.bytes) : ns = ns' := by
  obtain ⟨he, hs⟩ := seedPart_append_inj (append_cancel_left h)
  have hs := seedPart_append_inj (x := []) (y := []) (by simpa using hs)
  rcases ns with ⟨e, s⟩
  cases he
  cases hs.1
  rfl

/-- The page does not spell out what a namespace is hashed from. -/
def Page.Plain (p : Page w) : Prop :=
  ∀ ns : Namespace, ns.extraKey ≠ none ∨ ns.cacheSalt ≠ none → p.bytes ≠ ns.bytes

/-- No word of the page is `sgla`, the four bytes that a namespace is hashed with first. -/
def Page.Tagless (p : Page w) : Prop := ∀ t ∈ p.words, t ≠ 0x616c6773

instance (p : Page w) : Decidable p.Tagless :=
  inferInstanceAs (Decidable (∀ t ∈ p.words, t ≠ 0x616c6773))

/-- It suffices that no token is `sgla`, as no vocabulary has one. -/
lemma Page.Tagless.plain {p : Page w} (h : p.Tagless) (hw : 0 < w) : p.Plain := by
  obtain ⟨_ | ⟨t, l⟩, hl, hlt⟩ := p
  · simp at hl
    omega
  · intro ns _ hb
    have hb := congrArg (take 4) hb
    simp only [Page.bytes, flatMap_cons, Namespace.bytes] at hb
    rw [take_append_of_le_length (by simp), take_of_length_le (by simp),
      take_append_of_le_length (by decide)] at hb
    exact h t (by simp) (leBytes_inj (k := 4) (hlt t (by simp)) (by decide) hb)

variable (hinj : ∀ {x y : Option H} {l l' : List ℕ}, digest x l = digest y l' → x = y ∧ l = l')
include hinj

/-- Different namespaces have different seeds. -/
lemma seed_inj (h : storageNamespaceSeed digest ns = storageNamespaceSeed digest ns') :
    ns = ns' := by
  unfold storageNamespaceSeed at h
  split at h <;> split at h
  · rcases ns
    rcases ns'
    simp_all
  · cases h
  · cases h
  · exact Namespace.bytes_inj (hinj (Option.some_inj.1 h)).2

/-- A chain of plain pages does not end in a seed. -/
lemma chained_ne_seed (hne : a ≠ []) (hp : ∀ p ∈ a, p.Plain) :
    chained digest prior a ≠ storageNamespaceSeed digest ns := by
  obtain ⟨ps, p, rfl⟩ := eq_nil_or_concat' a |>.resolve_left hne
  rw [chained_append, storageNamespaceSeed]
  split
  · simp [chained]
  · next hnamed =>
    rw [not_and_or] at hnamed
    intro h
    exact hp p (by simp) ns hnamed (hinj (Option.some_inj.1 h)).2

/-- **Chains of plain pages name their namespace and their pages.** -/
theorem chained_inj {a b : List (Page w)} (ha : ∀ p ∈ a, p.Plain)
    (hb : ∀ p ∈ b, p.Plain)
    (h : chained digest (storageNamespaceSeed digest ns) a =
      chained digest (storageNamespaceSeed digest ns') b) : ns = ns' ∧ a = b := by
  induction a using reverseRecOn generalizing b with
  | nil =>
    rcases eq_nil_or_concat' b with rfl | ⟨b, q, rfl⟩
    · exact ⟨seed_inj hinj h, rfl⟩
    · exact absurd h.symm (chained_ne_seed hinj (by simp) hb)
  | append_singleton a p ih =>
    rcases eq_nil_or_concat' b with rfl | ⟨b, q, rfl⟩
    · exact absurd h (chained_ne_seed hinj (by simp) ha)
    rw [chained_append, chained_append] at h
    obtain ⟨hc, hpq⟩ := hinj (Option.some_inj.1 h)
    obtain ⟨rfl, rfl⟩ := ih (by grind) (by grind) hc
    rw [Page.bytes_inj hpq]
    exact ⟨rfl, rfl⟩

end

end Sglang.Unified
