import HomeChain.ChainStats
import HomeChain.Proofs.Rebuilding
import HomeChain.Table.Iteration
import Mathlib.Data.List.Forall2
import Mathlib.Data.Option.Basic

/-!
# Arrays that differ in the width of their links

Two slot arrays are alike if slot by slot they hold the same entries, and links that stand for the
same integers; their widths may differ. A free slot leads to its successor by the integer
`-(successor + 1)` whatever the width, so arrays that are alike have the same lists.

Whatever reads arrays that are alike reads the same, and whatever writes them leaves them alike:
each operation gets a lemma that says so of the results, for the case that neither side meets a
fault (`Agree`).
-/

namespace HomeChain

/-! ## Computations that agree -/

section Agree

variable {α β γ δ : Type} {R : α → β → Prop} {S : γ → δ → Prop} {x : Except Fault α}
  {y : Except Fault β}

/-- If neither computation meets a fault, the results are related. -/
def Agree (R : α → β → Prop) (x : Except Fault α) (y : Except Fault β) : Prop :=
  ∀ a b, x = .ok a → y = .ok b → R a b

namespace Agree

theorem ok {a : α} {b : β} (h : R a b) : Agree R (.ok a) (.ok b) := by
  rintro _ _ ⟨⟩ ⟨⟩
  exact h

theorem error_left {f : Fault} : Agree R (.error f) y := by
  intro a b hx
  cases hx

theorem error_right {f : Fault} : Agree R x (.error f) := by
  intro a b _ hy
  cases hy

/-- One result that is related to whatever comes of the other side. -/
theorem left {a : α} (h : ∀ b, R a b) : Agree R (.ok a) y := by
  rintro _ b ⟨⟩ -
  exact h b

theorem right {b : β} (h : ∀ a, R a b) : Agree R x (.ok b) := by
  rintro a _ - ⟨⟩
  exact h a

/-- One computation after another. -/
theorem bind {f : α → Except Fault γ} {g : β → Except Fault δ} (h : Agree R x y)
    (hfg : ∀ a b, R a b → Agree S (f a) (g b)) : Agree S (x >>= f) (y >>= g) := by
  cases x with
  | error e => exact error_left
  | ok a =>
    cases y with
    | error e => exact error_right
    | ok b => exact hfg a b (h a b rfl rfl)

/-- One computation after another that has the same result on both sides. -/
theorem bind_eq {x y : Except Fault α} {f : α → Except Fault γ} {g : α → Except Fault δ}
    (h : Agree (· = ·) x y) (hfg : ∀ a, Agree S (f a) (g a)) : Agree S (x >>= f) (y >>= g) := by
  refine h.bind fun a b hab => ?_
  rw [hab]
  exact hfg b

/-- The same computation on both sides. -/
theorem refl (x : Except Fault α) : Agree (· = ·) x x := by
  intro a b ha hb
  rw [ha] at hb
  exact Except.ok.inj hb

end Agree

end Agree

variable {w w' : LinkWidth} {K V : Type}

/-! ## Links -/

/-- The links stand for the same integer. -/
def Link.Alike (a : Link w) (b : Link w') : Prop := a.toInt = b.toInt

namespace Link

theorem alike_null : (null : Link w).Alike (null : Link w') := by
  rw [Alike, toInt_null, toInt_null]

theorem alike_ofIndex {i : Nat} (h : i ≤ w.maxCapacity) (h' : i ≤ w'.maxCapacity) :
    (ofIndex i : Link w).Alike (ofIndex i : Link w') := by
  rw [Alike, toInt_ofIndex h, toInt_ofIndex h']

theorem alike_ofSuccessor {i : Nat} (h : i ≤ w.maxCapacity) (h' : i ≤ w'.maxCapacity) :
    (ofSuccessor i : Link w).Alike (ofSuccessor i : Link w') := by
  rw [Alike, toInt_ofSuccessor h, toInt_ofSuccessor h']

/-- An index that links of both widths can name is named by links that are alike. -/
theorem agree_encodeIndex (i : Nat) :
    Agree Alike (encodeIndex i : Except Fault (Link w))
      (encodeIndex i : Except Fault (Link w')) := by
  unfold encodeIndex
  split
  · split
    · exact .ok (alike_ofIndex ‹_› ‹_›)
    · exact .error_right
  · exact .error_left

theorem agree_encodeSuccessor (i : Nat) :
    Agree Alike (encodeSuccessor i : Except Fault (Link w))
      (encodeSuccessor i : Except Fault (Link w')) := by
  unfold encodeSuccessor
  split
  · split
    · exact .ok (alike_ofSuccessor ‹_› ‹_›)
    · exact .error_right
  · exact .error_left

namespace Alike

variable {a : Link w} {b : Link w'}

theorem isNegative_eq (h : a.Alike b) : a.isNegative = b.isNegative := by
  rw [Bool.eq_iff_iff, isNegative_iff, isNegative_iff, h]

theorem decodeIndex_eq (h : a.Alike b) : a.decodeIndex = b.decodeIndex := by
  rw [decodeIndex, decodeIndex, h.isNegative_eq]
  split
  · rfl
  · rename_i hneg
    rw [isNegative_iff, ← h] at hneg
    have ha := toIndex_of_nonneg (l := a) (by omega)
    have hb := toIndex_of_nonneg (l := b) (by rw [← h]; omega)
    rw [Except.ok.injEq]
    rw [Alike] at h
    omega

theorem decodeSuccessor_eq (h : a.Alike b) : a.decodeSuccessor = b.decodeSuccessor := by
  rw [decodeSuccessor, decodeSuccessor, h.isNegative_eq]
  split
  · rename_i hneg
    rw [isNegative_iff] at hneg
    have hb := toSuccessor_of_neg hneg
    rw [← h] at hneg hb
    have ha := toSuccessor_of_neg hneg
    rw [Except.ok.injEq]
    omega
  · rfl

theorem eq_null_iff (h : a.Alike b) : a = null ↔ b = null := by
  have hnull : ∀ {u : LinkWidth} (l : Link u), l = null ↔ l.toInt = 0 := fun l => by
    constructor
    · rintro rfl
      exact toInt_null
    · intro hl
      exact ext_toInt (hl.trans toInt_null.symm)
  rw [hnull, hnull, h]

end Alike

end Link

/-! ## Slots -/

/-- The slots are of one kind; they hold the same entry, and links that are alike. -/
inductive Slot.Alike : Slot w K V → Slot w' K V → Prop where
  | free {prev next : Link w} {prev' next' : Link w'} (prev_alike : prev.Alike prev')
      (next_alike : next.Alike next') : Alike (.free prev next) (.free prev' next')
  | used {next : Link w} {next' : Link w'} {key : K} {value : V} (next_alike : next.Alike next') :
      Alike (.used next key value) (.used next' key value)

namespace Slot.Alike

variable {a : Slot w K V} {b : Slot w' K V} {l : Link w} {l' : Link w'}

theorem isUsed_eq (h : a.Alike b) : a.isUsed = b.isUsed := by cases h <;> rfl

theorem entry?_eq (h : a.Alike b) : a.entry? = b.entry? := by cases h <;> rfl

theorem rawNext (h : a.Alike b) : a.rawNext.Alike b.rawNext := by
  cases h with
  | free _ hnext => exact hnext
  | used hnext => exact hnext

theorem value_eq (h : a.Alike b) : a.value = b.value := by cases h <;> rfl

theorem chainNext (h : a.Alike b) : Agree Link.Alike a.chainNext b.chainNext := by
  cases h with
  | free => exact .error_left
  | used hnext => exact .ok hnext

theorem freeLinks (h : a.Alike b) :
    Agree (fun x y => x.1.Alike y.1 ∧ x.2.Alike y.2) a.freeLinks b.freeLinks := by
  cases h with
  | free hprev hnext => exact .ok ⟨hprev, hnext⟩
  | used => exact .error_left

theorem setChainNext (h : a.Alike b) (hl : l.Alike l') :
    Agree Slot.Alike (a.setChainNext l) (b.setChainNext l') := by
  cases h with
  | free => exact .error_left
  | used => exact .ok (.used hl)

theorem updateValue (h : a.Alike b) (f : V → V) :
    Agree Slot.Alike (a.updateValue f) (b.updateValue f) := by
  cases h with
  | free => exact .error_left
  | used hnext => exact .ok (.used hnext)

theorem setPrev (h : a.Alike b) (hl : l.Alike l') :
    Agree Slot.Alike (a.setPrev l) (b.setPrev l') := by
  cases h with
  | free _ hnext => exact .ok (.free hl hnext)
  | used => exact .error_left

theorem setFreeNext (h : a.Alike b) (hl : l.Alike l') :
    Agree Slot.Alike (a.setFreeNext l) (b.setFreeNext l') := by
  cases h with
  | free hprev => exact .ok (.free hprev hl)
  | used => exact .error_left

end Slot.Alike

namespace SlotArray

/-! ## Single slots -/

/-- The arrays are alike slot by slot. -/
def Alike (s : SlotArray w K V) (s' : SlotArray w' K V) : Prop :=
  ∀ i : Nat, Option.Rel Slot.Alike s[i]? s'[i]?

/-- What a new array holds does not depend on the width, where links of the width can serve it. -/
theorem alike_fresh {c : Nat} (h : c ≤ w.maxCapacity) (h' : c ≤ w'.maxCapacity) :
    (fresh c : SlotArray w K V).Alike (fresh c : SlotArray w' K V) := by
  intro i
  rcases Nat.lt_or_ge c i with hi | hi
  · rw [Array.getElem?_eq_none (by rw [size_fresh]; omega),
      Array.getElem?_eq_none (by rw [size_fresh]; omega)]
    exact .none
  · rw [getElem?_fresh hi, getElem?_fresh hi]
    have hprev : (if i = 0 then c else i - 1) ≤ c := by split <;> omega
    have hnext : (if i = c then 0 else i + 1) ≤ c := by split <;> omega
    exact .some (.free (Link.alike_ofIndex (hprev.trans h) (hprev.trans h'))
      (Link.alike_ofSuccessor (hnext.trans h) (hnext.trans h')))

namespace Alike

variable {s : SlotArray w K V} {s' : SlotArray w' K V} {l : Link w} {l' : Link w'} {i : Nat}

theorem slots (h : s.Alike s') (i : Nat) : (s[i]? = none ∧ s'[i]? = none) ∨
    ∃ a b, s[i]? = some a ∧ s'[i]? = some b ∧ a.Alike b := by
  generalize hs : s[i]? = x
  generalize hs' : s'[i]? = y
  have hi := h i
  rw [hs, hs'] at hi
  cases hi with
  | none => exact .inl ⟨rfl, rfl⟩
  | some hab => exact .inr ⟨_, _, rfl, rfl, hab⟩

theorem size_eq (h : s.Alike s') : s.size = s'.size := by
  have hiff : ∀ i, s.size ≤ i ↔ s'.size ≤ i := fun i => by
    rw [← Array.getElem?_eq_none_iff, ← Array.getElem?_eq_none_iff]
    rcases h.slots i with ⟨hs, hs'⟩ | ⟨a, b, hs, hs', -⟩
    · simp [hs, hs']
    · simp [hs, hs']
  exact le_antisymm ((hiff _).mpr le_rfl) ((hiff _).mp le_rfl)

theorem setIfInBounds (h : s.Alike s') {a : Slot w K V} {b : Slot w' K V} (hab : a.Alike b)
    (i : Nat) : SlotArray.Alike (s.setIfInBounds i a) (s'.setIfInBounds i b) := by
  intro j
  rw [Array.getElem?_setIfInBounds, Array.getElem?_setIfInBounds, h.size_eq]
  split
  · split
    · exact .some hab
    · exact .none
  · exact h j

theorem read (h : s.Alike s') (i : Nat) : Agree Slot.Alike (s.read i) (s'.read i) := by
  unfold SlotArray.read
  rcases h.slots i with ⟨hs, hs'⟩ | ⟨a, b, hs, hs', hab⟩
  · rw [hs]
    exact .error_left
  · rw [hs, hs']
    exact .ok hab

theorem write (h : s.Alike s') {a : Slot w K V} {b : Slot w' K V} (hab : a.Alike b) (i : Nat) :
    Agree Alike (s.write i a) (s'.write i b) := by
  by_cases hi : i < s.size
  · rw [write_eq hi, write_eq (h.size_eq ▸ hi)]
    exact .ok (h.setIfInBounds hab i)
  · rw [SlotArray.write, dif_neg hi]
    exact .error_left

/-- A slot is replaced by what comes of it, on both sides. -/
theorem update (h : s.Alike s') {f : Slot w K V → Except Fault (Slot w K V)}
    {f' : Slot w' K V → Except Fault (Slot w' K V)}
    (hf : ∀ a b, a.Alike b → Agree Slot.Alike (f a) (f' b)) (i : Nat) :
    Agree Alike (s.update i f) (s'.update i f') := by
  rcases h.slots i with ⟨hs, -⟩ | ⟨a, b, hs, hs', hab⟩
  · have hi : ¬ i < s.size := Nat.not_lt.mpr (Array.getElem?_eq_none_iff.mp hs)
    rw [SlotArray.update, dif_neg hi]
    exact .error_left
  · rw [update_eq_bind hs, update_eq_bind hs']
    exact (hf a b hab).bind fun a b hab => .ok (h.setIfInBounds hab i)

theorem isUsed_eq (h : s.Alike s') (i : Nat) : s.isUsed i = s'.isUsed i := by
  rw [isUsed, isUsed]
  rcases h.slots i with ⟨hs, hs'⟩ | ⟨a, b, hs, hs', hab⟩
  · rw [hs, hs']
  · rw [hs, hs']
    exact hab.isUsed_eq

theorem value (h : s.Alike s') (i : Nat) : Agree (· = ·) (s.value i) (s'.value i) :=
  (h.read i).bind fun a _ hab => hab.value_eq ▸ .refl a.value

theorem updateValue (h : s.Alike s') (i : Nat) (f : V → V) :
    Agree Alike (s.updateValue i f) (s'.updateValue i f) :=
  h.update (fun _ _ hab => hab.updateValue f) i

theorem chainNext (h : s.Alike s') (i : Nat) :
    Agree Link.Alike (s.chainNext i) (s'.chainNext i) :=
  (h.read i).bind fun _ _ hab => hab.chainNext

theorem setChainNext (h : s.Alike s') (hl : l.Alike l') (i : Nat) :
    Agree Alike (s.setChainNext i l) (s'.setChainNext i l') :=
  h.update (fun _ _ hab => hab.setChainNext hl) i

theorem setPrev (h : s.Alike s') (hl : l.Alike l') (i : Nat) :
    Agree Alike (s.setPrev i l) (s'.setPrev i l') :=
  h.update (fun _ _ hab => hab.setPrev hl) i

theorem setFreeNext (h : s.Alike s') (hl : l.Alike l') (i : Nat) :
    Agree Alike (s.setFreeNext i l) (s'.setFreeNext i l') :=
  h.update (fun _ _ hab => hab.setFreeNext hl) i

/-! ## The free list -/

theorem firstFree (h : s.Alike s') : Agree (· = ·) s.firstFree s'.firstFree :=
  (h.read 0).bind fun a _ hab => hab.rawNext.decodeSuccessor_eq ▸ .refl a.rawNext.decodeSuccessor

/-- The same slot is taken. -/
theorem acquire (h : s.Alike s') :
    Agree (fun x y => x.1 = y.1 ∧ x.2.Alike y.2) s.acquire s'.acquire := by
  unfold SlotArray.acquire
  refine h.firstFree.bind_eq fun first => ?_
  split
  · exact .error_left
  refine (h.read first).bind fun a b hab => hab.freeLinks.bind ?_
  rintro ⟨prev, next⟩ ⟨prev', next'⟩ ⟨-, hnext⟩
  dsimp only at hnext ⊢
  rw [← hnext.decodeSuccessor_eq]
  refine (Agree.refl _).bind_eq fun second => ?_
  refine (h.setPrev Link.alike_null second).bind fun u u' hu => ?_
  exact (hu.setFreeNext hnext 0).bind fun x y hxy => .ok ⟨rfl, hxy⟩

theorem unlink (h : s.Alike s') (i : Nat) : Agree Alike (s.unlink i) (s'.unlink i) := by
  unfold SlotArray.unlink
  refine (h.read i).bind fun a b hab => hab.freeLinks.bind ?_
  rintro ⟨prev, next⟩ ⟨prev', next'⟩ ⟨hprev, hnext⟩
  dsimp only at hprev hnext ⊢
  rw [← hprev.decodeIndex_eq, ← hnext.decodeSuccessor_eq]
  refine (Agree.refl _).bind_eq fun p => ?_
  refine (h.setFreeNext hnext p).bind fun u u' hu => ?_
  refine (Agree.refl _).bind_eq fun q => ?_
  exact hu.setPrev hprev q

theorem release (h : s.Alike s') (i : Nat) : Agree Alike (s.release i) (s'.release i) := by
  unfold SlotArray.release
  rw [h.isUsed_eq i]
  split
  · exact .error_left
  refine h.firstFree.bind_eq fun first => ?_
  refine (Link.agree_encodeIndex i).bind fun l l' hl => ?_
  refine (h.setPrev hl first).bind fun u u' hu => ?_
  refine (Link.agree_encodeSuccessor first).bind fun m m' hm => ?_
  refine (hu.write (.free Link.alike_null hm) i).bind fun v v' hv => ?_
  exact (Link.agree_encodeSuccessor i).bind fun n n' hn => hv.setFreeNext hn 0

theorem reset (h : s.Alike s') : Agree Alike s.reset s'.reset := by
  have hcap : s.capacity = s'.capacity := by rw [capacity, capacity, h.size_eq]
  unfold SlotArray.reset
  rw [h.size_eq, hcap]
  split
  · exact .error_left
  split
  · exact .error_left
  split
  · exact .error_right
  exact .ok (alike_fresh (by omega) (by omega))

/-! ## Walks along a chain -/

theorem search [DecidableEq K] (h : s.Alike s') (key : K) (dangling : Fault) (steps : Nat)
    (before : List Nat) (i : Nat) :
    Agree (· = ·) (s.search key dangling steps before i)
      (s'.search key dangling steps before i) := by
  induction steps generalizing before i with
  | zero => exact .error_left
  | succ steps ih =>
    unfold SlotArray.search
    rcases h.slots i with ⟨hs, -⟩ | ⟨a, b, hs, hs', hab⟩
    · rw [hs]
      exact .error_left
    rw [hs, hs']
    cases hab with
    | free => exact .error_left
    | @used next next' k v hnext =>
      dsimp only
      by_cases hk : k = key
      · rw [if_pos hk, if_pos hk]
        exact .refl _
      rw [if_neg hk, if_neg hk]
      simp only [hnext.eq_null_iff, hnext.decodeIndex_eq]
      split
      · exact .refl _
      split
      · exact ih _ _
      · exact .error_left

theorem predecessor (h : s.Alike s') (target steps i : Nat) :
    Agree (· = ·) (s.predecessor target steps i) (s'.predecessor target steps i) := by
  induction steps generalizing i with
  | zero => exact .error_left
  | succ steps ih =>
    unfold SlotArray.predecessor
    refine (h.chainNext i).bind fun next next' hnext => ?_
    simp only [hnext.eq_null_iff, hnext.decodeIndex_eq]
    split
    · exact .error_left
    refine (Agree.refl _).bind_eq fun j => ?_
    split
    · exact .refl _
    · exact ih j

theorem chainLength (h : s.Alike s') (steps passed i : Nat) :
    Agree (· = ·) (s.chainLength steps passed i) (s'.chainLength steps passed i) := by
  induction steps generalizing passed i with
  | zero => exact .error_left
  | succ steps ih =>
    unfold SlotArray.chainLength
    refine (h.chainNext i).bind fun next next' hnext => ?_
    simp only [hnext.eq_null_iff, hnext.decodeIndex_eq]
    split
    · exact .refl _
    refine (Agree.refl _).bind_eq fun j => ?_
    exact ih (passed + 1) j

/-! ## Iteration -/

theorem entryAt_eq (h : s.Alike s') (i : Nat) : s.entryAt i = s'.entryAt i := by
  rw [entryAt, entryAt]
  rcases h.slots i with ⟨hs, hs'⟩ | ⟨a, b, hs, hs', hab⟩
  · rw [hs, hs']
    rfl
  · rw [hs, hs']
    exact hab.entry?_eq

theorem nextUsed_eq (h : s.Alike s') (steps i : Nat) :
    s.nextUsed steps i = s'.nextUsed steps i := by
  induction steps generalizing i with
  | zero => rfl
  | succ steps ih => rw [nextUsed, nextUsed, h.isUsed_eq i, ih (i + 1)]

theorem cursor_next_eq (h : s.Alike s') (c : Cursor) : c.next s = c.next s' := by
  unfold Cursor.next
  rw [h.size_eq, h.nextUsed_eq]

theorem updateEntry (h : s.Alike s') (i : Nat) (f : K → V → V) :
    SlotArray.Alike (s.updateEntry i f) (s'.updateEntry i f) := by
  unfold SlotArray.updateEntry
  rcases h.slots i with ⟨hs, hs'⟩ | ⟨a, b, hs, hs', hab⟩
  · rw [hs, hs']
    exact h
  · rw [hs, hs']
    cases hab with
    | free => exact h
    | used hnext => exact h.setIfInBounds (.used hnext) i

/-- The slots from some place on, in order. -/
theorem forall₂_drop (h : s.Alike s') (n : Nat) :
    List.Forall₂ Slot.Alike (s.toList.drop n) (s'.toList.drop n) := by
  refine List.forall₂_drop n (List.forall₂_iff_get.mpr ⟨h.size_eq, fun i hi hi' => ?_⟩)
  rcases h.slots i with ⟨hs, -⟩ | ⟨a, b, hs, hs', hab⟩
  · exact absurd (Array.getElem?_eq_none_iff.mp hs) (Nat.not_le.mpr hi)
  · obtain ⟨_, rfl⟩ := Array.getElem?_eq_some_iff.mp hs
    obtain ⟨_, rfl⟩ := Array.getElem?_eq_some_iff.mp hs'
    exact hab

end Alike

end SlotArray

end HomeChain
