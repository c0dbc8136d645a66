import HomeChain.Hash

/-!
# Keys

What a key writes when it is hashed: integers of up to 64 bits write themselves as one word,
wider ones their little-endian bytes; a text writes its bytes and an end mark; an optional
key says first whether it is there; a pair writes its parts in turn; a row of integers writes
its length and then the bytes of all of them.
-/

namespace HomeChain

/-- A type of keys that can be hashed. -/
class HashKey (K : Type) where
  /-- What the key writes, in order. -/
  writes : K → List Write

/-- The pass-through hash of a key. -/
def HashKey.hash {K : Type} [HashKey K] (k : K) : UInt64 :=
  Hash.ofWrites (HashKey.writes k)

/-! ## Integers -/

/-- An integer key of `bits` bits; `signed` says which number the word stands for. -/
structure IntegerKey (signed : Bool) (bits : Nat) where
  /-- The bits of the key. -/
  word : BitVec bits
deriving DecidableEq

namespace IntegerKey

variable {signed : Bool} {bits : Nat}

/-- The number a key stands for. -/
def toInt (k : IntegerKey signed bits) : Int :=
  if signed then k.word.toInt else k.word.toNat

/-- The key that stands for `n`, if there is one. -/
def ofInt? (n : Int) : Option (IntegerKey signed bits) :=
  let k : IntegerKey signed bits := ⟨BitVec.ofInt bits n⟩
  if k.toInt = n then some k else none

/-- The key made of the low bits of a word, with zeros in front if it is wider. -/
def ofWord (n : UInt64) : IntegerKey signed bits := ⟨BitVec.ofNat bits n.toNat⟩

/-- The little-endian bytes of a key. -/
def bytes (k : IntegerKey signed bits) : List UInt8 :=
  (List.range ((bits + 7) / 8)).map fun i => UInt8.ofNat (k.word.toNat >>> (8 * i))

instance : HashKey (IntegerKey signed bits) where
  writes k :=
    if bits ≤ 64 then [.bits64 (UInt64.ofNat k.word.toNat)] else [.bytes k.bytes]

end IntegerKey

/-! ## Other keys -/

instance : HashKey UInt64 where
  writes n := [.bits64 n]

instance : HashKey Bool where
  writes b := [.bits8 b.toUInt8]

instance : HashKey Char where
  writes c := [.bits32 c.val]

instance : HashKey String where
  writes s := [.bytes s.toUTF8.toList, .bits8 255]

instance : HashKey Unit where
  writes _ := []

instance {K : Type} [HashKey K] : HashKey (Option K) where
  writes
    | none => [.bits64 0]
    | some k => .bits64 1 :: HashKey.writes k

instance {A B : Type} [HashKey A] [HashKey B] : HashKey (A × B) where
  writes p := HashKey.writes p.1 ++ HashKey.writes p.2

instance {signed : Bool} {bits n : Nat} : HashKey (Vector (IntegerKey signed bits) n) where
  writes ks := [.bits64 (UInt64.ofNat n), .bytes (ks.toList.flatMap IntegerKey.bytes)]

end HomeChain
