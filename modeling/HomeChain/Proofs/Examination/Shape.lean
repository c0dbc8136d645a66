import HomeChain.Proofs.Rebuilding

/-!
# The shape of a table

An examination goes in stages. Each stage `Decides` a property of the table: it passes just if
the property holds, and otherwise it names a defect; it runs into no fault. The first stage
decides whether a table is `Shapely`, that is, whether what `InOrder` says about single slots
and about numbers is true of it. The stages behind rely on that.
-/

namespace HomeChain

variable {w : LinkWidth} {K V : Type}

/-! ## Stages -/

/-- The defect is not one that iteration would have to show. -/
def Inconsistency.IsFinding : Inconsistency → Prop
  | iterationMismatch .. => False
  | _ => True

/-- A stage passes, and what it passes on satisfies `P`; or nothing satisfies `P`, and the stage
has found a defect. -/
inductive Decides {α : Type} (P : α → Prop) : Except Halt α → Prop where
  | passed {a : α} (holds : P a) : Decides P (.ok a)
  | found {d : Inconsistency} (finding : d.IsFinding) (fails : ∀ a, ¬ P a) :
      Decides P (.error (.defect d))

theorem Decides.congr {α : Type} {P Q : α → Prop} {x : Except Halt α} (h : Decides P x)
    (hPQ : ∀ a, P a ↔ Q a) : Decides Q x := by
  rwa [show Q = P from funext fun a => propext (hPQ a).symm]

/-- A stage behind another one may rely on what the first one decides, if what it decides itself
cannot be had without that. -/
theorem Decides.bind {α β : Type} {P : α → Prop} {Q : β → Prop} {x : Except Halt α}
    {f : α → Except Halt β} (hx : Decides P x) (hQP : ∀ b, Q b → ∃ a, P a)
    (hf : ∀ a, P a → Decides Q (f a)) : Decides Q (x >>= f) := by
  cases hx with
  | passed holds => exact hf _ holds
  | found finding fails =>
    refine .found finding fun b hb => ?_
    obtain ⟨a, ha⟩ := hQP b hb
    exact fails a ha

/-- A stage passes on the one thing that can be passed on. -/
theorem Decides.eq_ok {α : Type} {P : α → Prop} {x : Except Halt α} {a : α} (h : Decides P x)
    (ha : P a) (hP : ∀ b, P b → b = a) : x = .ok a := by
  cases h with
  | passed hb => rw [hP _ hb]
  | found _ hfails => exact absurd ha (hfails a)

/-! ## Links -/

/-- The links of a slot have the signs of its kind, and name slots up to `c`. -/
def Slot.LinksWithin (c : Nat) : Slot w K V → Prop
  | free prev next => (0 ≤ prev.toInt ∧ prev.toInt ≤ c) ∧ -(c + 1 : Int) ≤ next.toInt ∧ next.toInt < 0
  | used next _ _ => 0 ≤ next.toInt ∧ next.toInt ≤ c

theorem Slot.linksWithin_free_iff {c : Nat} {prev next : Link w} :
    (Slot.free prev next : Slot w K V).LinksWithin c ↔ (!next.isNegative || prev.isNegative ||
      decide (c < prev.toIndex) || decide (c < next.toSuccessor)) = false := by
  simp only [LinksWithin, Bool.or_eq_false_iff, Bool.not_eq_false', decide_eq_false_iff_not,
    Link.isNegative_iff, Link.isNegative_eq_false_iff, Nat.not_lt]
  constructor
  · rintro ⟨⟨h0, h1⟩, h2, h3⟩
    have hp := Link.toIndex_of_nonneg h0
    have hn := Link.toSuccessor_of_neg h3
    omega
  · rintro ⟨⟨⟨h3, h0⟩, h1⟩, h2⟩
    have hp := Link.toIndex_of_nonneg h0
    have hn := Link.toSuccessor_of_neg h3
    omega

theorem Slot.linksWithin_used_iff {c : Nat} {next : Link w} {k : K} {v : V} :
    (Slot.used next k v).LinksWithin c ↔
      (next.isNegative || decide (c < next.toIndex)) = false := by
  simp only [LinksWithin, Bool.or_eq_false_iff, decide_eq_false_iff_not,
    Link.isNegative_eq_false_iff, Nat.not_lt]
  refine and_congr_right fun h0 => ?_
  have hn := Link.toIndex_of_nonneg h0
  omega

/-- The links of the slots are in order, and the anchor, if it is among them, is free. -/
structure WellLinked (c i : Nat) (l : List (Slot w K V)) : Prop where
  anchor : i = 0 → ∀ slot ∈ l.head?, slot.isUsed = false
  links : ∀ slot ∈ l, slot.LinksWithin c

/-- Only the first slot of an array can be the anchor. -/
theorem wellLinked_cons_iff {c i : Nat} {slot : Slot w K V} {rest : List (Slot w K V)} :
    WellLinked c i (slot :: rest) ↔
      ((i = 0 → slot.isUsed = false) ∧ slot.LinksWithin c) ∧ WellLinked c (i + 1) rest := by
  constructor
  · intro h
    obtain ⟨hslot, hrest⟩ := List.forall_mem_cons.mp h.links
    exact ⟨⟨fun h0 => h.anchor h0 slot rfl, hslot⟩, ⟨fun h0 => by omega, hrest⟩⟩
  · rintro ⟨⟨hanchor, hslot⟩, hrest⟩
    refine ⟨fun h0 s hs => ?_, List.forall_mem_cons.mpr ⟨hslot, hrest.links⟩⟩
    cases hs
    exact hanchor h0

/-- The scan of the slots decides whether they are well linked, and counts the used ones. -/
theorem SlotArray.scan_decides (c i used : Nat) (l : List (Slot w K V)) :
    Decides (fun n => n = used + l.countP Slot.isUsed ∧ WellLinked c i l) (scan c i used l) := by
  -- the index of the first slot grows along the list, so only the first step can meet the anchor
  induction l generalizing i used with
  | nil =>
    refine .passed ⟨rfl, ⟨fun _ slot h => ?_, by simp⟩⟩
    cases h
  | cons slot rest ih =>
    simp only [wellLinked_cons_iff]
    cases slot with
    | free prev next =>
      rw [List.countP_cons_of_neg (by simp [Slot.isUsed]), scan, Slot.linksWithin_free_iff]
      by_cases hbad : (!next.isNegative || prev.isNegative || decide (c < prev.toIndex) ||
          decide (c < next.toSuccessor)) = true
      · rw [if_pos hbad]
        refine .found trivial fun n hn => ?_
        rw [hn.2.1.2] at hbad
        cases hbad
      · rw [if_neg hbad]
        rw [Bool.not_eq_true] at hbad
        refine (ih (i + 1) used).congr fun n => and_congr_right fun _ => ?_
        exact (and_iff_right ⟨fun _ => rfl, hbad⟩).symm
    | used next k v =>
      rw [List.countP_cons_of_pos rfl, scan, Slot.linksWithin_used_iff]
      by_cases h0 : i = 0
      · rw [if_pos h0]
        refine .found trivial fun n hn => ?_
        have hfree := hn.2.1.1 h0
        cases hfree
      rw [if_neg h0]
      by_cases hbad : (next.isNegative || decide (c < next.toIndex)) = true
      · rw [if_pos hbad]
        refine .found trivial fun n hn => ?_
        rw [hn.2.1.2] at hbad
        cases hbad
      · rw [if_neg hbad]
        rw [Bool.not_eq_true] at hbad
        refine (ih (i + 1) (used + 1)).congr fun n => ?_
        rw [Nat.add_assoc, Nat.add_comm 1]
        refine and_congr_right fun _ => ?_
        exact (and_iff_right ⟨fun h => absurd h h0, hbad⟩).symm

/-- With a free anchor, all used slots are counted by the array. -/
theorem SlotArray.countP_eq_usedCount {s : SlotArray w K V}
    (h : ∀ slot ∈ s.toList.head?, slot.isUsed = false) :
    s.toList.countP Slot.isUsed = s.usedCount := by
  rw [usedCount]
  cases hl : s.toList with
  | nil => rfl
  | cons slot rest =>
    have hfree : slot.isUsed = false := h slot (by rw [hl]; rfl)
    rw [List.countP_cons_of_neg (by simp [hfree])]
    rfl

/-! ## Tables -/

namespace Table

variable {t : Table w K V}

/-- What is said of single slots and of numbers is true of the table. -/
structure Shapely (t : Table w K V) : Prop where
  capacity_pow : ∃ n, t.capacity = 2 ^ n
  size_eq : t.slots.size = t.capacity + 1
  anchor_free : ∃ prev next, t.slots[0]? = some (.free prev next)
  links : ∀ (i : Nat) (slot : Slot w K V), t.slots[i]? = some slot → slot.LinksWithin t.capacity
  len_eq : t.len = t.slots.usedCount

theorem InOrder.shapely (ht : t.InOrder) : t.Shapely where
  capacity_pow := ht.capacity_pow
  size_eq := ht.size_eq
  anchor_free := ht.anchor_free
  links i slot hs := by
    cases slot with
    | free prev next => exact ht.free_links i prev next hs
    | used next k v => exact ht.used_links i next k v hs
  len_eq := ht.len_eq

/-- Every used slot gives one entry. -/
theorem length_filterMap_entry (l : List (Slot w K V)) :
    (l.filterMap Slot.entry?).length = l.countP Slot.isUsed := by
  rw [List.length_filterMap_eq_countP]
  refine List.countP_congr fun slot _ => ?_
  cases slot <;> rfl

/-- Iteration over a table that counts its entries right leaves none of them out. -/
theorem entries_eq (hlen : t.len = t.slots.usedCount) :
    t.entries = (t.slots.toList.drop 1).filterMap Slot.entry? := by
  rw [entries, List.take_of_length_le]
  rw [length_filterMap_entry, hlen, SlotArray.usedCount]

/-- It gives as many as the table counts. -/
theorem length_entries (hlen : t.len = t.slots.usedCount) : t.entries.length = t.len := by
  rw [entries_eq hlen, length_filterMap_entry, hlen, SlotArray.usedCount]

/-- A table of the right size is shapely if its slots are well linked and counted right. -/
theorem shapely_iff (hpow : ∃ n, t.capacity = 2 ^ n) (hsize : t.slots.size = t.capacity + 1) :
    t.Shapely ↔ t.len = t.slots.toList.countP Slot.isUsed ∧
      WellLinked t.capacity 0 t.slots.toList := by
  obtain ⟨slot, rest, hslots⟩ : ∃ slot rest, t.slots.toList = slot :: rest := by
    cases hl : t.slots.toList with
    | nil =>
      rw [← Array.length_toList, hl] at hsize
      cases hsize
    | cons slot rest => exact ⟨slot, rest, rfl⟩
  have h0 : t.slots[0]? = some slot := by
    rw [← Array.getElem?_toList, hslots]
    rfl
  have hcount : slot.isUsed = false →
      t.slots.toList.countP Slot.isUsed = t.slots.usedCount := fun hfree => by
    refine SlotArray.countP_eq_usedCount fun s hs => ?_
    rw [hslots] at hs
    cases hs
    exact hfree
  constructor
  · intro h
    have hfree : slot.isUsed = false := by
      obtain ⟨prev, next, hs⟩ := h.anchor_free
      rw [h0, Option.some.injEq] at hs
      rw [hs]
      rfl
    refine ⟨h.len_eq.trans (hcount hfree).symm, ⟨fun _ s hs => ?_, fun s hs => ?_⟩⟩
    · rw [hslots] at hs
      cases hs
      exact hfree
    · obtain ⟨i, hi⟩ := List.mem_iff_getElem?.mp hs
      exact h.links i s (by rw [← Array.getElem?_toList, hi])
  · rintro ⟨hlen, hlinked⟩
    have hfree : slot.isUsed = false := hlinked.anchor rfl slot (by rw [hslots]; rfl)
    refine ⟨hpow, hsize, ?_, fun i s hs => ?_, hlen.trans (hcount hfree)⟩
    · cases slot with
      | free prev next => exact ⟨prev, next, h0⟩
      | used next k v => cases hfree
    · refine hlinked.links s (List.mem_iff_getElem?.mpr ⟨i, ?_⟩)
      rw [Array.getElem?_toList, hs]

/-- The first stage decides whether a table is shapely. -/
theorem checkShape_decides (t : Table w K V) :
    Decides (fun used => used = t.len ∧ t.Shapely) t.checkShape := by
  unfold checkShape
  by_cases hbad : (!isPowerOfTwo t.capacity || decide (t.slots.size ≠ t.capacity + 1)) = true
  · rw [if_pos hbad]
    refine .found trivial fun used hused => ?_
    rw [isPowerOfTwo_iff.mpr hused.2.capacity_pow, hused.2.size_eq] at hbad
    simp at hbad
  · rw [if_neg hbad]
    simp only [ne_eq, decide_not, Bool.or_eq_true, Bool.not_eq_true', not_or, Bool.not_eq_false,
      decide_eq_false_iff_not, not_not] at hbad
    -- the size is right, so what is left to check is what the scan and the count say
    have hshapely := shapely_iff (isPowerOfTwo_iff.mp hbad.1) hbad.2
    have hscan := SlotArray.scan_decides t.capacity 0 0 t.slots.toList
    rw [Nat.zero_add] at hscan
    refine hscan.bind (fun used hused => ⟨_, rfl, (hshapely.mp hused.2).2⟩) fun used hused => ?_
    obtain ⟨hcount, hlinked⟩ := hused
    by_cases hne : used = t.len
    · have ht : t.Shapely := hshapely.mpr ⟨hne.symm.trans hcount, hlinked⟩
      rw [if_neg (not_not.mpr hne), if_neg (not_not.mpr (length_entries ht.len_eq))]
      exact .passed ⟨hne, ht⟩
    · rw [if_pos hne]
      refine .found trivial fun n hn => hne ?_
      rw [hcount, (hshapely.mp hn.2).1]

end Table

end HomeChain
