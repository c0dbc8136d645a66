/-!
# The pass-through hash

A key is hashed as the sequence of things it writes. Writing turns into 64-bit words: an
integer is one word, a run of bytes is cut into little-endian words of eight bytes, the last
one padded with zeros. The state takes a word by turning five bits to the left and adding the
word without carry,

  `absorb s w = rotl s 5 xor w`,

so a key that writes a single integer hashes to that integer.
-/

namespace HomeChain

/-- One thing that a key writes. Sizes and counts are 64-bit integers. -/
inductive Write where
  | bits8 (n : UInt8)
  | bits16 (n : UInt16)
  | bits32 (n : UInt32)
  | bits64 (n : UInt64)
  | bytes (bs : List UInt8)
deriving DecidableEq, Repr

namespace Hash

/-- The word whose little-endian bytes are `bs`, the missing ones being zero. -/
def wordOfBytes (bs : List UInt8) : UInt64 :=
  bs.foldr (fun b acc => (acc <<< 8) ||| b.toUInt64) 0

/-- The words of a run of bytes: eight bytes to a word, the last word padded with zeros. -/
def wordsOfBytes : List UInt8 → List UInt64
  | [] => []
  | b :: bs => wordOfBytes (b :: bs.take 7) :: wordsOfBytes (bs.drop 7)
termination_by bs => bs.length
decreasing_by simp only [List.length_drop, List.length_cons]; omega

/-- The state after the word `w`. -/
def absorb (s w : UInt64) : UInt64 :=
  ((s <<< 5) ||| (s >>> 59)) ^^^ w

/-- The state after several words. -/
def absorbAll (s : UInt64) (ws : List UInt64) : UInt64 :=
  ws.foldl absorb s

end Hash

namespace Write

/-- The words that a write turns into. -/
def words : Write → List UInt64
  | bits8 n => [n.toUInt64]
  | bits16 n => [n.toUInt64]
  | bits32 n => [n.toUInt64]
  | bits64 n => [n]
  | bytes bs => Hash.wordsOfBytes bs

end Write

namespace Hash

/-- The state after a write. -/
def write (s : UInt64) (x : Write) : UInt64 :=
  absorbAll s x.words

/-- The hash of a sequence of writes. -/
def ofWrites (xs : List Write) : UInt64 :=
  xs.foldl write 0

/-- The states that a sequence of writes passes through, the first one included. -/
def states (s : UInt64) : List Write → List UInt64
  | [] => [s]
  | x :: xs => s :: states (write s x) xs

/-! ## Mixing

A table may be given a hash that is poorer, or better spread, than the words written. -/

/-- What is done to the pass-through hash of a key before it is used. -/
inductive Mixer where
  /-- Nothing. -/
  | passThrough
  /-- Every key hashes to `c`. -/
  | constant (c : UInt64)
  /-- The hash is multiplied by `m`, and only the bits from `shift` on are kept. -/
  | multiplyShift (m shift : UInt64)
deriving DecidableEq, Repr

/-- The mixed hash. -/
def Mixer.apply : Mixer → UInt64 → UInt64
  | passThrough, h => h
  | constant c, _ => c
  | multiplyShift m shift, h => (h * m) >>> shift

end Hash

end HomeChain
