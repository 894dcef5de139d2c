/-!
# Hash/Word — hashing and mixing of 64-bit words

Everything that is compared by fingerprint here is reduced to a 64-bit word first.  `absorb` is one
FNV-1a step, folded over words (`absorbWords`) or over bytes (`absorbBytes`); `mix` spreads a word
over all 64 bits; `draw` is the generator from which hash functions take their coefficients.
All arithmetic is modulo `2 ^ 64`.
-/

namespace CodeClones.Hash

/-- The FNV-1a offset basis: the hash of nothing. -/
def basis : UInt64 := 14695981039346656037

/-- The FNV-1a multiplier.  It is odd, so multiplying by it loses nothing. -/
def multiplier : UInt64 := 1099511628211

/-- **One FNV-1a step** — xor the word in, then multiply. -/
def absorb (hash word : UInt64) : UInt64 :=
  (hash ^^^ word) * multiplier

/-- FNV-1a over whole words, continuing from `hash`. -/
def absorbWords (hash : UInt64) (words : List UInt64) : UInt64 :=
  words.foldl absorb hash

/-- FNV-1a over bytes, continuing from `hash`. -/
def absorbBytes (hash : UInt64) (bytes : List UInt8) : UInt64 :=
  bytes.foldl (fun h b => absorb h b.toUInt64) hash

theorem absorbWords_append (hash : UInt64) (xs ys : List UInt64) :
    absorbWords hash (xs ++ ys) = absorbWords (absorbWords hash xs) ys :=
  List.foldl_append

theorem absorbBytes_append (hash : UInt64) (xs ys : List UInt8) :
    absorbBytes hash (xs ++ ys) = absorbBytes (absorbBytes hash xs) ys :=
  List.foldl_append

/-- **The finaliser** — two xor-shift-multiply rounds, so that words that differ little leave it
far apart. -/
def mix (word : UInt64) : UInt64 :=
  let x := word + 0x9E3779B97F4A7C15
  let y := (x ^^^ (x >>> 30)) * 0xBF58476D1CE4E5B9
  let z := (y ^^^ (y >>> 27)) * 0x94D049BB133111EB
  z ^^^ (z >>> 31)

/-- The state after `state` in the linear congruential sequence; the state is the number drawn. -/
def draw (state : UInt64) : UInt64 :=
  state * 6364136223846793005 + 1442695040888963407

/-- The first `count` numbers drawn after `state`. -/
def draws (state : UInt64) : Nat → List UInt64
  | 0 => []
  | count + 1 => draw state :: draws (draw state) count

theorem length_draws (state : UInt64) (count : Nat) : (draws state count).length = count := by
  induction count generalizing state with
  | zero => rfl
  | succ count ih => simp only [draws, List.length_cons, ih]

end CodeClones.Hash
