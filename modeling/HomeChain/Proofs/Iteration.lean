import HomeChain.Table.Iteration
import Mathlib.Tactic.Common

/-!
# What a cursor goes over

The entries ahead of a cursor are those of the slots from its position on, up to the number that
it counts down from. A request takes the first of them, so requests from the start take the
entries of the table one by one,

  `t.ahead (t.steps n).2 = t.entries.drop n`,

whether or not the table is in order.
-/

namespace HomeChain

variable {w : LinkWidth} {K V : Type}

namespace SlotArray

/-- The entries in the slots from `i` on. -/
def entriesFrom (s : SlotArray w K V) (i : Nat) : List (K × V) :=
  (s.toList.drop i).filterMap Slot.entry?

theorem entriesFrom_eq (s : SlotArray w K V) (i : Nat) :
    s.entriesFrom i = (s.entryAt i).toList ++ s.entriesFrom (i + 1) := by
  rw [entriesFrom, List.drop_eq_getElem?_toList_append, List.filterMap_append, entryAt,
    Array.getElem?_toList]
  cases s[i]? with
  | none => rfl
  | some slot => cases h : slot.entry? <;> simp [h, entriesFrom]

theorem entriesFrom_eq_nil {s : SlotArray w K V} {i : Nat} (h : s.size ≤ i) :
    s.entriesFrom i = [] := by
  rw [entriesFrom, List.drop_eq_nil_of_le (by rwa [Array.length_toList])]
  rfl

theorem isUsed_iff_entryAt {s : SlotArray w K V} {i : Nat} :
    s.isUsed i = true ↔ ∃ e, s.entryAt i = some e := by
  rw [isUsed, entryAt]
  rcases s[i]? with _ | _ | _ <;> simp [Slot.isUsed, Slot.entry?]

/-- The first used slot is that of the first entry. -/
theorem nextUsed_spec (s : SlotArray w K V) (steps i : Nat) (h : s.size ≤ steps + i) :
    (∃ j e, s.nextUsed steps i = some j ∧ s.entryAt j = some e ∧
      s.entriesFrom i = e :: s.entriesFrom (j + 1)) ∨
    (s.nextUsed steps i = none ∧ s.entriesFrom i = []) := by
  induction steps generalizing i with
  | zero => exact .inr ⟨rfl, entriesFrom_eq_nil (by omega)⟩
  | succ steps ih =>
    rw [nextUsed, entriesFrom_eq]
    by_cases hi : s.isUsed i = true
    · obtain ⟨e, he⟩ := isUsed_iff_entryAt.mp hi
      rw [if_pos hi, he]
      exact .inl ⟨i, e, rfl, he, rfl⟩
    · have hnone : s.entryAt i = none := by
        rw [isUsed_iff_entryAt, not_exists] at hi
        exact Option.eq_none_iff_forall_ne_some.mpr hi
      rw [if_neg hi, hnone]
      exact ih (i + 1) (by omega)

end SlotArray

namespace Table

variable (t : Table w K V)

/-- The entries that a cursor has not come to yet. -/
def ahead (c : Cursor) : List (K × V) := (t.slots.entriesFrom c.position).take c.remaining

theorem ahead_start : t.ahead t.start = t.entries := rfl

/-- A request takes the first entry ahead and counts it, if there is one. -/
theorem next_spec (c : Cursor) :
    (∃ e c', t.next c = (some e, c') ∧ t.ahead c = e :: t.ahead c' ∧
      c.remaining = c'.remaining + 1) ∨
    (∃ c', t.next c = (none, c') ∧ t.ahead c = [] ∧ t.ahead c' = [] ∧
      c'.remaining = c.remaining) := by
  unfold next Cursor.next
  by_cases hc : c.remaining = 0
  · have hnil : t.ahead c = [] := by rw [ahead, hc, List.take_zero]
    rw [if_pos hc]
    exact .inr ⟨c, rfl, hnil, hnil, rfl⟩
  · rw [if_neg hc]
    rcases t.slots.nextUsed_spec (t.slots.size - c.position) c.position (by omega) with
      ⟨j, e, hj, he, hfrom⟩ | ⟨hnone, hfrom⟩
    · obtain ⟨r, hr⟩ : ∃ r, c.remaining = r + 1 := ⟨c.remaining - 1, by omega⟩
      rw [hj, hr]
      refine .inl ⟨e, ⟨j + 1, r⟩, ?_, ?_, rfl⟩
      · exact congrArg (·, _) he
      · rw [ahead, ahead, hfrom, hr, List.take_succ_cons]
    · rw [hnone]
      refine .inr ⟨_, rfl, ?_, ?_, rfl⟩
      · rw [ahead, hfrom, List.take_nil]
      · rw [ahead, SlotArray.entriesFrom_eq_nil (Nat.le_refl _), List.take_nil]

theorem steps_succ (n : Nat) : t.steps (n + 1) =
    ((t.steps n).1.push ((t.steps n).2.remaining, (t.next (t.steps n).2).1),
      (t.next (t.steps n).2).2) := by
  rw [steps, List.range_succ, List.foldl_append]
  rfl

/-- The entries among the answers to `n` requests, made one after another. -/
def yielded (n : Nat) : List (K × V) := (t.steps n).1.toList.filterMap Prod.snd

/-- The first requests take the first entries, and leave the others ahead. -/
theorem steps_spec (n : Nat) :
    t.yielded n = t.entries.take n ∧ t.ahead (t.steps n).2 = t.entries.drop n := by
  induction n with
  | zero => exact ⟨rfl, t.ahead_start⟩
  | succ n ih =>
    obtain ⟨htaken, hleft⟩ := ih
    have hyielded : t.yielded (n + 1) = t.yielded n ++ (t.next (t.steps n).2).1.toList := by
      rw [yielded, steps_succ, Array.toList_push, List.filterMap_append]
      cases h : (t.next (t.steps n).2).1 <;> simp [yielded]
    rw [hyielded, htaken, List.take_add_one, steps_succ]
    dsimp only
    have hhead : t.entries[n]? = (t.entries.drop n).head? := by rw [List.head?_drop]
    rw [hhead, ← List.tail_drop, ← hleft]
    rcases t.next_spec (t.steps n).2 with ⟨e, c, hnext, hahead, -⟩ | ⟨c, hnext, hahead, hc, -⟩
    · rw [hnext, hahead]
      exact ⟨rfl, rfl⟩
    · rw [hnext, hahead, hc]
      exact ⟨rfl, rfl⟩

/-- As many requests as the table counts entries take all of them. -/
theorem yielded_eq_entries {n : Nat} (h : t.len ≤ n) : t.yielded n = t.entries := by
  have hlen : t.entries.length ≤ t.len := by
    rw [entries, List.length_take]
    exact Nat.min_le_left ..
  rw [(t.steps_spec n).1, List.take_of_length_le (by omega)]

end Table

end HomeChain
