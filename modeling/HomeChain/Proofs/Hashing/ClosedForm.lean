import HomeChain.Hash
import Mathlib.Data.Nat.Digits.Defs

/-!
# The hash in closed form

The state turns by five bits whenever it takes a word, and a word that it has taken turns with it.
So after `n` words `w₁, …, wₙ` the state `s` has turned `n` times, and the word `wᵢ` once for each
word behind it,

  `rotl s (5 n) xor rotl w₁ (5 (n - 1)) xor … xor rotl wₙ 0`,

whatever the writes were that the words come from. The words of a run of bytes are the numbers
with eight of them as digits.
-/

namespace HomeChain

namespace Hash

/-! ## Turning a word -/

/-- The word `x`, turned to the left by `k` bits. -/
def rotl (x : UInt64) (k : Nat) : UInt64 := ⟨x.toBitVec.rotateLeft k⟩

/-- Bit `i` of the word that was turned by `k` bits is the bit `k` places below, cyclically. -/
theorem getLsbD_rotl (x : UInt64) (k : Nat) {i : Nat} (hi : i < 64) :
    (rotl x k).toBitVec.getLsbD i = x.toBitVec.getLsbD ((i + (64 - k % 64)) % 64) := by
  show (x.toBitVec.rotateLeft k).getLsbD i = _
  rw [BitVec.getLsbD_rotateLeft]
  have hk : k % 64 < 64 := Nat.mod_lt _ (by decide)
  by_cases hik : i < k % 64
  · rw [decide_eq_true hik, cond_true]
    congr 1
    omega
  · rw [decide_eq_false hik, cond_false, decide_eq_true hi, Bool.true_and]
    congr 1
    omega

/-- Words are equal if their bits are. -/
theorem eq_of_getLsbD {x y : UInt64}
    (h : ∀ i < 64, x.toBitVec.getLsbD i = y.toBitVec.getLsbD i) : x = y :=
  UInt64.toBitVec_inj.mp (BitVec.eq_of_getLsbD_eq h)

theorem rotl_xor (x y : UInt64) (k : Nat) : rotl (x ^^^ y) k = rotl x k ^^^ rotl y k := by
  apply eq_of_getLsbD
  intro i hi
  rw [getLsbD_rotl _ k hi, UInt64.toBitVec_xor, UInt64.toBitVec_xor, BitVec.getLsbD_xor,
    BitVec.getLsbD_xor, getLsbD_rotl x k hi, getLsbD_rotl y k hi]

theorem rotl_rotl (x : UInt64) (j k : Nat) : rotl (rotl x j) k = rotl x (j + k) := by
  apply eq_of_getLsbD
  intro i hi
  rw [getLsbD_rotl _ k hi, getLsbD_rotl _ j (Nat.mod_lt _ (by decide)), getLsbD_rotl x _ hi]
  congr 1
  omega

theorem rotl_mod (x : UInt64) (k : Nat) : rotl x (k % 64) = rotl x k :=
  congrArg UInt64.ofBitVec BitVec.rotateLeft_mod_eq_rotateLeft

theorem rotl_zero (x : UInt64) : rotl x 0 = x := by
  apply eq_of_getLsbD
  intro i hi
  rw [getLsbD_rotl x 0 hi]
  congr 1
  omega

/-- A word that is zero stays zero. -/
theorem zero_rotl (k : Nat) : rotl 0 k = 0 := by
  apply eq_of_getLsbD
  intro i hi
  rw [getLsbD_rotl 0 k hi]
  exact (BitVec.getLsbD_zero).trans BitVec.getLsbD_zero.symm

theorem absorb_eq (s w : UInt64) : absorb s w = rotl s 5 ^^^ w := rfl

/-! ## Taking several words -/

/-- The words, added without carry. -/
def xorAll (ws : List UInt64) : UInt64 := ws.foldr (· ^^^ ·) 0

/-- Of several words, each one turned by five bits for each word behind it. -/
def turned (ws : List UInt64) : List UInt64 :=
  ws.mapIdx fun i w => rotl w (5 * (ws.length - (i + 1)) % 64)

theorem turned_cons (w : UInt64) (ws : List UInt64) :
    turned (w :: ws) = rotl w (5 * ws.length) :: turned ws := by
  rw [turned, List.mapIdx_cons, List.length_cons, rotl_mod, turned]
  simp only [Nat.add_sub_add_right, Nat.sub_zero]

theorem absorbAll_eq (s : UInt64) (ws : List UInt64) :
    absorbAll s ws = rotl s (5 * ws.length % 64) ^^^ xorAll (turned ws) := by
  rw [rotl_mod]
  induction ws generalizing s with
  | nil => exact ((UInt64.xor_zero).trans (rotl_zero s)).symm
  | cons w ws ih =>
    have hturn : 5 + 5 * ws.length = 5 * (ws.length + 1) := by omega
    calc absorbAll s (w :: ws)
      _ = absorbAll (absorb s w) ws := rfl
      _ = rotl (rotl s 5 ^^^ w) (5 * ws.length) ^^^ xorAll (turned ws) := by rw [ih, absorb_eq]
      _ = rotl s (5 * (ws.length + 1)) ^^^
            (rotl w (5 * ws.length) ^^^ xorAll (turned ws)) := by
          rw [rotl_xor, rotl_rotl, hturn, UInt64.xor_assoc]
      _ = rotl s (5 * (w :: ws).length) ^^^ xorAll (turned (w :: ws)) := by
          rw [turned_cons]
          rfl

theorem absorbAll_append (s : UInt64) (us ws : List UInt64) :
    absorbAll s (us ++ ws) = absorbAll (absorbAll s us) ws := List.foldl_append

/-- The state after several writes is that after their words. -/
theorem foldl_write (s : UInt64) (xs : List Write) :
    xs.foldl write s = absorbAll s (xs.flatMap Write.words) := by
  induction xs generalizing s with
  | nil => rfl
  | cons x xs ih =>
    rw [List.foldl_cons, List.flatMap_cons, absorbAll_append, ih]
    rfl

/-! ## Bytes -/

/-- The number whose bytes are `bs`, the least significant one first. -/
def littleEndian (bs : List UInt8) : Nat := Nat.ofDigits 256 (bs.map UInt8.toNat)

/-- The last `count` bytes of a number, the least significant one first. -/
def bytesOf : (count : Nat) → Nat → List UInt8
  | 0, _ => []
  | count + 1, n => .ofNat n :: bytesOf count (n / 256)

/-- The `i`-th run of eight bytes, with zeros for those that are missing. -/
def chunk (bs : List UInt8) (i : Nat) : List UInt8 := ((bs.drop (8 * i)).take 8).rightpad 8 0

theorem littleEndian_cons (b : UInt8) (bs : List UInt8) :
    littleEndian (b :: bs) = b.toNat + 256 * littleEndian bs := by
  rw [littleEndian, List.map_cons, Nat.ofDigits_cons]
  rfl

theorem digit_lt (bs : List UInt8) : ∀ d ∈ bs.map UInt8.toNat, d < 256 := by
  intro d hd
  obtain ⟨b, -, rfl⟩ := List.mem_map.mp hd
  exact b.toNat_lt

theorem littleEndian_lt (bs : List UInt8) : littleEndian bs < 256 ^ bs.length := by
  have hlt := Nat.ofDigits_lt_base_pow_length (by decide) (digit_lt bs)
  rwa [List.length_map] at hlt

theorem littleEndian_bytesOf (count n : Nat) :
    littleEndian (bytesOf count n) = n % 256 ^ count := by
  induction count generalizing n with
  | zero => rw [Nat.pow_zero, Nat.mod_one]; rfl
  | succ count ih =>
    rw [bytesOf, littleEndian_cons, ih, Nat.pow_succ', Nat.mod_mul]
    rfl

theorem length_bytesOf (count n : Nat) : (bytesOf count n).length = count := by
  induction count generalizing n with
  | zero => rfl
  | succ count ih => rw [bytesOf, List.length_cons, ih]

/-- Zeros behind the most significant byte change nothing. -/
theorem littleEndian_rightpad (bs : List UInt8) (count : Nat) :
    littleEndian (bs.rightpad count 0) = littleEndian bs := by
  rw [List.rightpad, littleEndian, List.map_append, List.map_replicate]
  exact Nat.ofDigits_append_replicate_zero _

/-- The word of eight bytes, or fewer, is their number. -/
theorem toNat_wordOfBytes {bs : List UInt8} (h : bs.length ≤ 8) :
    (wordOfBytes bs).toNat = littleEndian bs := by
  induction bs with
  | nil => rfl
  | cons b bs ih =>
    rw [List.length_cons] at h
    have hlt : littleEndian bs < 2 ^ 56 := by
      calc littleEndian bs
        _ < 256 ^ bs.length := littleEndian_lt bs
        _ ≤ 256 ^ 7 := Nat.pow_le_pow_right (by decide) (by omega)
        _ = 2 ^ 56 := by decide
    have hstep : wordOfBytes (b :: bs) = (wordOfBytes bs <<< 8) ||| b.toUInt64 := rfl
    have hshift : littleEndian bs <<< 8 % 2 ^ 64 = littleEndian bs <<< 8 := by
      rw [Nat.shiftLeft_eq]
      omega
    rw [hstep, UInt64.toNat_or, UInt64.toNat_shiftLeft, ih (by omega), UInt8.toNat_toUInt64,
      littleEndian_cons]
    show littleEndian bs <<< 8 % 2 ^ 64 ||| b.toNat = _
    rw [hshift, ← Nat.shiftLeft_add_eq_or_of_lt (by exact b.toNat_lt), Nat.shiftLeft_eq]
    omega

/-- The first eight bytes of a run, or all of them if there are fewer, are its first word. -/
theorem wordsOfBytes_cons (b : UInt8) (bs : List UInt8) :
    wordsOfBytes (b :: bs) = wordOfBytes (b :: bs.take 7) :: wordsOfBytes (bs.drop 7) := by
  rw [wordsOfBytes]

/-- Eight bytes, or fewer, are one word. -/
theorem wordsOfBytes_of_le {bs : List UInt8} (hne : bs ≠ []) (h : bs.length ≤ 8) :
    wordsOfBytes bs = [wordOfBytes bs] := by
  obtain ⟨b, bs, rfl⟩ := List.exists_cons_of_ne_nil hne
  rw [List.length_cons] at h
  rw [wordsOfBytes_cons, List.take_of_length_le (by omega), List.drop_of_length_le (by omega),
    wordsOfBytes]

/-- A run of bytes can be written in two parts if the first one fills its words. -/
theorem wordsOfBytes_append {as : List UInt8} (bs : List UInt8) (h : 8 ∣ as.length) :
    wordsOfBytes (as ++ bs) = wordsOfBytes as ++ wordsOfBytes bs := by
  induction as using wordsOfBytes.induct with
  | case1 => rw [wordsOfBytes, List.nil_append, List.nil_append]
  | case2 a as ih =>
    -- the rest of the first part has the other seven bytes of the word
    rw [List.length_cons] at h
    have hlen : 7 ≤ as.length := by omega
    have hrest : 8 ∣ (as.drop 7).length := by
      rw [List.length_drop]
      omega
    rw [List.cons_append, wordsOfBytes_cons, wordsOfBytes_cons, List.take_append_of_le_length hlen,
      List.drop_append_of_le_length hlen, ih hrest, List.cons_append]

theorem chunk_cons_succ (b : UInt8) (bs : List UInt8) (i : Nat) :
    chunk (b :: bs) (i + 1) = chunk (bs.drop 7) i := by
  have hindex : 8 * (i + 1) = 7 + 8 * i + 1 := by omega
  rw [chunk, chunk, List.drop_drop, hindex, List.drop_succ_cons]

/-- The words of a run of bytes are the numbers of its chunks. -/
theorem toNat_wordsOfBytes (bs : List UInt8) :
    (wordsOfBytes bs).map UInt64.toNat =
      (List.range ((bs.length + 7) / 8)).map fun i => littleEndian (chunk bs i) := by
  induction bs using wordsOfBytes.induct with
  | case1 => rw [wordsOfBytes]; rfl
  | case2 b bs ih =>
    have hcount : ((b :: bs).length + 7) / 8 = ((bs.drop 7).length + 7) / 8 + 1 := by
      rw [List.length_cons, List.length_drop]
      omega
    have hlen : (b :: bs.take 7).length ≤ 8 := by
      rw [List.length_cons, List.length_take]
      omega
    have hfirst : littleEndian (chunk (b :: bs) 0) = littleEndian (b :: bs.take 7) :=
      littleEndian_rightpad (b :: bs.take 7) 8
    rw [wordsOfBytes_cons, List.map_cons, toNat_wordOfBytes hlen, ih, hcount,
      List.range_succ_eq_map, List.map_cons, List.map_map, hfirst]
    simp only [Function.comp_def, Nat.succ_eq_add_one, chunk_cons_succ]

end Hash

/-! ## Writes -/

namespace Write

/-- The width in bits of the integer written, and the integer itself. A run of bytes is none. -/
def integer? : Write → Option (Nat × Nat)
  | bits8 n => some (8, n.toNat)
  | bits16 n => some (16, n.toNat)
  | bits32 n => some (32, n.toNat)
  | bits64 n => some (64, n.toNat)
  | bytes _ => none

/-- The numbers that a write stands for: the integer written, or those of the chunks of a run of
bytes, which are none for the empty run. -/
def numbers : Write → List Nat
  | bits8 n => [n.toNat]
  | bits16 n => [n.toNat]
  | bits32 n => [n.toNat]
  | bits64 n => [n.toNat]
  | bytes bs =>
    (List.range ((bs.length + 7) / 8)).map fun i => Hash.littleEndian (Hash.chunk bs i)

/-- The words of a write are its numbers. -/
theorem toNat_words (x : Write) : x.words.map UInt64.toNat = x.numbers := by
  cases x with
  | bits8 n => rfl
  | bits16 n => rfl
  | bits32 n => rfl
  | bits64 n => rfl
  | bytes bs => exact Hash.toNat_wordsOfBytes bs

/-- An integer is written as one word. -/
theorem words_of_integer {x : Write} {width n : Nat} (h : x.integer? = some (width, n)) :
    n < 2 ^ width ∧ ∃ w, x.words = [w] ∧ w.toNat = n := by
  cases x with
  | bits8 m =>
    cases h
    exact ⟨m.toNat_lt, _, rfl, m.toNat_toUInt64⟩
  | bits16 m =>
    cases h
    exact ⟨m.toNat_lt, _, rfl, m.toNat_toUInt64⟩
  | bits32 m =>
    cases h
    exact ⟨m.toNat_lt, _, rfl, m.toNat_toUInt64⟩
  | bits64 m =>
    cases h
    exact ⟨m.toNat_lt, _, rfl, rfl⟩
  | bytes bs => cases h

end Write

/-! ## The closed form -/

namespace Hash

/-- The state after a write of several words, or of none, is that after the words. -/
theorem write_eq (s : UInt64) (x : Write) : write s x = absorbAll s x.words := rfl

/-- A new state takes a single word as it is. -/
theorem absorbAll_singleton (w : UInt64) : absorbAll 0 [w] = w := by
  show absorb 0 w = w
  rw [absorb_eq, zero_rotl, UInt64.zero_xor]

/-- Whatever is written, and in whatever state, the state afterwards is the first one and the words,
each turned by five bits for each word behind it, added without carry. So a single integer hashes to
itself, the eight bytes of a number are written like the number, and a run of bytes is written
like its two parts, if the first one consists of whole words. -/
theorem closed_form :
    (∀ (s : UInt64) (xs : List Write), ∃ ws : List UInt64,
      ws.map UInt64.toNat = xs.flatMap Write.numbers ∧
      xs.foldl write s = rotl s (5 * ws.length % 64) ^^^
        xorAll (ws.mapIdx fun i w => rotl w (5 * (ws.length - (i + 1)) % 64))) ∧
    (∀ (x : Write) (width n : Nat), x.integer? = some (width, n) → (ofWrites [x]).toNat = n) ∧
    (∀ s n : UInt64, write s (.bytes (bytesOf 8 n.toNat)) = write s (.bits64 n)) ∧
    (∀ (s : UInt64) (as bs : List UInt8), 8 ∣ as.length →
      write s (.bytes (as ++ bs)) = write (write s (.bytes as)) (.bytes bs)) := by
  refine ⟨fun s xs => ⟨xs.flatMap Write.words, ?_, ?_⟩, fun x width n h => ?_, fun s n => ?_,
    fun s as bs h => ?_⟩
  · rw [List.map_flatMap]
    simp only [Write.toNat_words]
  · rw [foldl_write, absorbAll_eq, turned]
  · obtain ⟨-, w, hwords, rfl⟩ := Write.words_of_integer h
    show (write 0 x).toNat = _
    rw [write_eq, hwords, absorbAll_singleton]
  · have hlen : (bytesOf 8 n.toNat).length ≤ 8 := (length_bytesOf 8 _).le
    have hword : wordOfBytes (bytesOf 8 n.toNat) = n := by
      apply UInt64.toNat_inj.mp
      rw [toNat_wordOfBytes hlen, littleEndian_bytesOf]
      exact Nat.mod_eq_of_lt n.toNat_lt
    have hne : bytesOf 8 n.toNat ≠ [] := List.cons_ne_nil _ _
    have hwords : wordsOfBytes (bytesOf 8 n.toNat) = [n] := by
      rw [wordsOfBytes_of_le hne hlen, hword]
    exact congrArg (absorbAll s) hwords
  · rw [write_eq, write_eq, write_eq, ← absorbAll_append]
    exact congrArg (absorbAll s) (wordsOfBytes_append bs h)

/-- A short integer, and nine bytes, the last one of which begins a word. -/
theorem closed_form_nine_bytes :
    (ofWrites [.bits16 513]).toNat = 513 ∧ 8 ∣ [1, 2, 3, 4, 5, 6, 7, 8].length ∧
      write 1 (.bytes ([1, 2, 3, 4, 5, 6, 7, 8] ++ [9])) =
        write (write 1 (.bytes [1, 2, 3, 4, 5, 6, 7, 8])) (.bytes [9]) :=
  ⟨closed_form.2.1 (.bits16 513) 16 513 rfl, by decide,
    closed_form.2.2.2 1 [1, 2, 3, 4, 5, 6, 7, 8] [9] (by decide)⟩

end Hash

end HomeChain
