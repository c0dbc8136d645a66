import HomeChain.Proofs.Hashing.ClosedForm

/-!
# Every word counts

A state that has taken a word can be taken back to the state before, if the word is known, and to
the word, if the state is. So sequences that differ in one word never lead to the same state. Where
two neighbours `a` and `b` change places, the state is the same just if their difference turns into
itself,

  `rotl (a xor b) 5 = a xor b`,

and as five and the number of bits are coprime, that is true only of a word with all bits equal.
-/

namespace HomeChain

namespace Hash

variable {s s' x y a b : UInt64} {as bs : List UInt8}

/-! ## Words that turn into themselves -/

theorem rotl_five_injective (h : rotl x 5 = rotl y 5) : x = y := by
  -- another 59 bits complete the turn
  have hturn : ∀ z : UInt64, rotl (rotl z 5) 59 = z := by
    intro z
    rw [rotl_rotl, ← rotl_mod]
    exact rotl_zero z
  rw [← hturn x, h, hturn y]

/-- What five bits turn into itself, one bit does: thirteen times five is one, and a full turn. -/
theorem rotl_one_eq (h : rotl x 5 = x) : rotl x 1 = x := by
  have hmany : ∀ k, rotl x (5 * k) = x := by
    intro k
    induction k with
    | zero => exact rotl_zero x
    | succ k ih => rw [Nat.mul_succ, ← rotl_rotl, ih, h]
  calc rotl x 1
    _ = rotl x (5 * 13 % 64) := rfl
    _ = rotl x (5 * 13) := rotl_mod x _
    _ = x := hmany 13

/-- A word that one bit turns into itself has all bits equal. -/
theorem getLsbD_eq_zero (h : rotl x 1 = x) {i : Nat} (hi : i < 64) :
    x.toBitVec.getLsbD i = x.toBitVec.getLsbD 0 := by
  induction i with
  | zero => rfl
  | succ i ih =>
    have hbelow : (i + 1 + (64 - 1 % 64)) % 64 = i := by omega
    rw [← ih (by omega), ← congrArg (fun w : UInt64 => w.toBitVec.getLsbD (i + 1)) h]
    rw [getLsbD_rotl x 1 hi, hbelow]

theorem rotl_five_eq_self_iff : rotl x 5 = x ↔ x = 0 ∨ x = ~~~0 := by
  constructor
  · intro h
    have hbits := fun i hi => getLsbD_eq_zero (rotl_one_eq h) (i := i) hi
    cases hbit : x.toBitVec.getLsbD 0 with
    | false =>
      left
      apply eq_of_getLsbD
      intro i hi
      rw [hbits i hi, hbit]
      exact BitVec.getLsbD_zero.symm
    | true =>
      right
      apply eq_of_getLsbD
      intro i hi
      rw [hbits i hi, hbit, UInt64.toBitVec_not, BitVec.getLsbD_not, decide_eq_true hi,
        Bool.true_and]
      exact congrArg (!·) BitVec.getLsbD_zero.symm
  · rintro (rfl | rfl)
    · exact zero_rotl 5
    · rfl

/-! ## Words that change places -/

theorem xor_eq_xor_iff {u v : UInt64} : x ^^^ y = u ^^^ v ↔ x ^^^ u = y ^^^ v := by
  rw [← UInt64.xor_eq_zero_iff, ← UInt64.xor_eq_zero_iff (a := x ^^^ u)]
  have hswap : x ^^^ y ^^^ (u ^^^ v) = x ^^^ u ^^^ (y ^^^ v) := by ac_rfl
  rw [hswap]

/-- Two words can change places just if they are equal, or complements of each other. -/
theorem absorb_comm_iff :
    absorb (absorb s a) b = absorb (absorb s b) a ↔ a = b ∨ a = ~~~b := by
  have htwice : ∀ u v : UInt64, absorb (absorb s u) v = rotl s 10 ^^^ (rotl u 5 ^^^ v) := by
    intro u v
    rw [absorb_eq, absorb_eq, rotl_xor, rotl_rotl, UInt64.xor_assoc]
  have hcompl : a ^^^ b = ~~~0 ↔ a = ~~~b := by
    rw [← UInt64.xor_eq_zero_iff (b := ~~~b), UInt64.xor_not, UInt64.not_eq_comm, eq_comm]
  rw [htwice, htwice, UInt64.xor_right_inj, xor_eq_xor_iff, ← rotl_xor, UInt64.xor_comm b a,
    rotl_five_eq_self_iff, UInt64.xor_eq_zero_iff, hcompl]

/-! ## Words that differ -/

theorem absorb_injective (h : absorb s x = absorb s' x) : s = s' := by
  rw [absorb_eq, absorb_eq, UInt64.xor_left_inj] at h
  exact rotl_five_injective h

/-- Different states do not become equal by taking the same words. -/
theorem absorbAll_injective (ws : List UInt64) (h : absorbAll s ws = absorbAll s' ws) :
    s = s' := by
  induction ws generalizing s s' with
  | nil => exact h
  | cons w ws ih => exact absorb_injective (ih h)

/-- The word in one place can be told from the state at the end. -/
theorem absorbAll_append_cons_inj {us ws : List UInt64} :
    absorbAll s (us ++ x :: ws) = absorbAll s (us ++ y :: ws) ↔ x = y := by
  constructor
  · intro h
    rw [absorbAll_append, absorbAll_append] at h
    have htaken : absorb (absorbAll s us) x = absorb (absorbAll s us) y := absorbAll_injective ws h
    rwa [absorb_eq, absorb_eq, UInt64.xor_right_inj] at htaken
  · rintro rfl
    rfl

/-- Two neighbours can change places, wherever they are, just if they could at the end. -/
theorem absorbAll_swap_iff {us ws : List UInt64} :
    absorbAll s (us ++ a :: b :: ws) = absorbAll s (us ++ b :: a :: ws) ↔
      a = b ∨ a = ~~~b := by
  rw [absorbAll_append, absorbAll_append, ← absorb_comm_iff (s := absorbAll s us)]
  constructor
  · intro h
    exact absorbAll_injective ws h
  · intro h
    exact congrArg (absorbAll · ws) h

/-- Sequences of one length that differ in a single place have the same words before and behind
it. -/
theorem exists_append_cons {α : Type} {us ws : List α} (hlen : us.length = ws.length)
    (h : ∃! i : Nat, us[i]? ≠ ws[i]?) :
    ∃ p u w q, us = p ++ u :: q ∧ ws = p ++ w :: q ∧ u ≠ w := by
  obtain ⟨i, hne, honly⟩ := h
  have hi : i < us.length := by
    by_contra hi
    apply hne
    rw [List.getElem?_eq_none (by omega), List.getElem?_eq_none (by omega)]
  have hi' : i < ws.length := hlen ▸ hi
  -- one is the other with a member replaced
  have hset : us.set i ws[i] = ws := by
    apply List.ext_getElem?
    intro j
    rw [List.getElem?_set]
    by_cases hij : i = j
    · subst hij
      rw [if_pos rfl, if_pos hi, List.getElem?_eq_getElem hi']
    · rw [if_neg hij]
      by_contra hj
      exact hij (honly j hj).symm
  refine ⟨us.take i, us[i], ws[i], us.drop (i + 1), ?_, ?_, ?_⟩
  · rw [List.getElem_cons_drop, List.take_append_drop]
  · rw [← List.set_eq_take_append_cons_drop.trans (if_pos hi), hset]
  · intro heq
    apply hne
    rw [List.getElem?_eq_getElem hi, List.getElem?_eq_getElem hi', heq]

/-! ## Bytes that differ -/

theorem littleEndian_injective (hlen : as.length = bs.length)
    (h : littleEndian as = littleEndian bs) : as = bs := by
  have hmap : as.map UInt8.toNat = bs.map UInt8.toNat :=
    Nat.ofDigits_inj_of_len_eq (by decide) (by rw [List.length_map, List.length_map, hlen])
      (digit_lt as) (digit_lt bs) h
  exact (List.map_inj_right fun _ _ => UInt8.toNat_inj.mp).mp hmap

/-- The words of a run of bytes: those of the first `i` chunks, that of the next one, and those of
the rest. -/
theorem wordsOfBytes_split (bs : List UInt8) {i : Nat} (hi : 8 * i < bs.length) :
    wordsOfBytes bs = wordsOfBytes (bs.take (8 * i)) ++
      wordOfBytes ((bs.drop (8 * i)).take 8) :: wordsOfBytes (bs.drop (8 * i + 8)) := by
  have hwhole : 8 ∣ (bs.take (8 * i)).length := by
    rw [List.length_take, Nat.min_eq_left hi.le]
    exact Nat.dvd_mul_right 8 i
  have hne : bs.drop (8 * i) ≠ [] := by
    rw [Ne, List.drop_eq_nil_iff]
    omega
  have hrest : wordsOfBytes (bs.drop (8 * i)) = wordOfBytes ((bs.drop (8 * i)).take 8) ::
      wordsOfBytes (bs.drop (8 * i + 8)) := by
    rw [← List.drop_drop]
    obtain ⟨c, cs, hcs⟩ := List.exists_cons_of_ne_nil hne
    rw [hcs, wordsOfBytes_cons]
    rfl
  rw [← hrest, ← wordsOfBytes_append _ hwhole, List.take_append_drop]

/-- Runs of bytes of one length that differ within one chunk do not collide. -/
theorem write_bytes_ne {i : Nat} (hlen : as.length = bs.length) (hne : as ≠ bs)
    (hsame : ∀ j, j / 8 ≠ i → as[j]? = bs[j]?) : write s (.bytes as) ≠ write s (.bytes bs) := by
  have htake : as.take (8 * i) = bs.take (8 * i) := by
    apply List.ext_getElem?
    intro j
    rw [List.getElem?_take, List.getElem?_take]
    split
    · exact hsame j (by omega)
    · rfl
  have hdrop : as.drop (8 * i + 8) = bs.drop (8 * i + 8) := by
    apply List.ext_getElem?
    intro j
    rw [List.getElem?_drop, List.getElem?_drop]
    exact hsame _ (by omega)
  have hchunk : (as.drop (8 * i)).take 8 ≠ (bs.drop (8 * i)).take 8 := by
    intro hchunk
    apply hne
    rw [← List.take_append_drop (8 * i) as, ← List.take_append_drop (8 * i) bs, htake,
      ← List.take_append_drop 8 (as.drop (8 * i)), ← List.take_append_drop 8 (bs.drop (8 * i)),
      hchunk, List.drop_drop, List.drop_drop, hdrop]
  have hi : 8 * i < as.length := by
    by_contra hi
    apply hchunk
    rw [List.drop_eq_nil_of_le (by omega), List.drop_eq_nil_of_le (by omega)]
  have hsize : ((as.drop (8 * i)).take 8).length = ((bs.drop (8 * i)).take 8).length := by
    rw [List.length_take, List.length_take, List.length_drop, List.length_drop, hlen]
  intro h
  have hwords : absorbAll s (wordsOfBytes as) = absorbAll s (wordsOfBytes bs) := h
  rw [wordsOfBytes_split as hi, wordsOfBytes_split bs (hlen ▸ hi), htake, hdrop,
    absorbAll_append_cons_inj] at hwords
  apply hchunk
  apply littleEndian_injective hsize
  rw [← toNat_wordOfBytes (List.length_take_le 8 _), ← toNat_wordOfBytes (List.length_take_le 8 _),
    hwords]

/-! ## Mixing -/

/-- From any state, writes with equally many words that differ in exactly one of them lead to
different states; so do runs of bytes of one length that differ within one chunk. Where two
neighbouring words change places, the state is the same just if they are equal or complements of
each other; so it differs where the words are different integers of fewer than 64 bits. -/
theorem every_word_counts :
    (∀ (s : UInt64) (xs ys : List Write),
      (xs.flatMap Write.words).length = (ys.flatMap Write.words).length →
      (∃! i : Nat, (xs.flatMap Write.words)[i]? ≠ (ys.flatMap Write.words)[i]?) →
      xs.foldl write s ≠ ys.foldl write s) ∧
    (∀ (s : UInt64) (as bs : List UInt8) (i : Nat), as.length = bs.length → as ≠ bs →
      (∀ j, j / 8 ≠ i → as[j]? = bs[j]?) → write s (.bytes as) ≠ write s (.bytes bs)) ∧
    (∀ (s : UInt64) (xs ys : List Write) (us ws : List UInt64) (a b : UInt64),
      xs.flatMap Write.words = us ++ a :: b :: ws → ys.flatMap Write.words = us ++ b :: a :: ws →
      (xs.foldl write s = ys.foldl write s ↔ a = b ∨ a = ~~~b)) ∧
    (∀ (s : UInt64) (xs ys : List Write) (x y : Write) (width width' m n : Nat),
      x.integer? = some (width, m) → y.integer? = some (width', n) → width < 64 → width' < 64 →
      m ≠ n → (xs ++ x :: y :: ys).foldl write s ≠ (xs ++ y :: x :: ys).foldl write s) := by
  refine ⟨fun s xs ys hlen hone => ?_, fun s as bs i => write_bytes_ne,
    fun s xs ys us ws a b hxs hys => ?_, fun s xs ys x y width width' m n hx hy hwidth hwidth' hne
      => ?_⟩
  · obtain ⟨p, u, w, q, hu, hw, hne⟩ := exists_append_cons hlen hone
    rw [foldl_write, foldl_write, hu, hw, Ne, absorbAll_append_cons_inj]
    exact hne
  · rw [foldl_write, foldl_write, hxs, hys, absorbAll_swap_iff]
  · obtain ⟨hm, a, ha, rfl⟩ := Write.words_of_integer hx
    obtain ⟨hn, b, hb, rfl⟩ := Write.words_of_integer hy
    have hwords : ∀ (z z' : Write) (c c' : UInt64), z.words = [c] → z'.words = [c'] →
        (xs ++ z :: z' :: ys).flatMap Write.words =
          xs.flatMap Write.words ++ c :: c' :: ys.flatMap Write.words := by
      intro z z' c c' hz hz'
      rw [List.flatMap_append, List.flatMap_cons, List.flatMap_cons, hz, hz']
      rfl
    rw [foldl_write, foldl_write, hwords x y a b ha hb, hwords y x b a hb ha, Ne,
      absorbAll_swap_iff]
    rintro (rfl | rfl)
    · exact hne rfl
    · -- complements add up to more than two words of 63 bits do
      have hm63 : 2 ^ width ≤ 2 ^ 63 := Nat.pow_le_pow_right (by decide) (by omega)
      have hn63 : 2 ^ width' ≤ 2 ^ 63 := Nat.pow_le_pow_right (by decide) (by omega)
      rw [UInt64.toNat_not, UInt64.size] at hm
      omega

/-- Pairs of short integers in both orders, and runs of two bytes. -/
theorem every_word_counts_pairs :
    [Write.bits32 1, .bits32 2].foldl write 0 ≠ [Write.bits32 1, .bits32 3].foldl write 0 ∧
    write 0 (.bytes [1, 2]) ≠ write 0 (.bytes [1, 3]) ∧
    [Write.bits64 7, .bits64 (~~~7)].foldl write 0 =
      [Write.bits64 (~~~7), .bits64 7].foldl write 0 ∧
    [Write.bits32 1, .bits32 2].foldl write 0 ≠ [Write.bits32 2, .bits32 1].foldl write 0 := by
  obtain ⟨hone, hbytes, hswap, hshort⟩ := every_word_counts
  refine ⟨hone 0 _ _ rfl ⟨1, by decide, ?_⟩, hbytes 0 _ _ 0 rfl (by decide) ?_,
    (hswap 0 _ _ [] [] 7 (~~~7) rfl rfl).mpr (.inr (by decide)),
    hshort 0 [] [] (.bits32 1) (.bits32 2) 32 32 1 2 rfl rfl (by decide) (by decide) (by decide)⟩
  · intro j hj
    match j with
    | 0 => exact absurd rfl hj
    | 1 => rfl
    | j + 2 => exact absurd rfl hj
  · intro j hj
    match j with
    | 0 => rfl
    | 1 => exact absurd rfl hj
    | j + 2 => rfl

end Hash

end HomeChain
