import HomeChain.Proofs.Examination.Values
import HomeChain.Proofs.Scanning
import HomeChain.Proofs.Visiting

/-!
# The slots that iteration goes to

Iteration goes to the used slots behind the anchor in ascending order, as many of them as the table
counts: the `tour` of the table. A cursor has a rest of the tour ahead of it and takes the first
slot of the rest; so after `n` requests it has taken the first `n` slots,

  `(t.steps n).2.ahead t.slots = t.tour.drop n`,

on a table in any state. A visit that replaces values moves the cursor in the same way, since it
changes no slot into a used or a free one.
-/

namespace HomeChain

variable {w : LinkWidth} {K V : Type}

/-! ## Used slots in order -/

namespace SlotArray

variable {s s' : SlotArray w K V} {i j : Nat}

/-- The used slots from slot `i` on, in ascending order. -/
def usedFrom (s : SlotArray w K V) (i : Nat) : List Nat :=
  (List.range' i (s.size - i)).filter s.isUsed

theorem lt_size_of_isUsed (h : s.isUsed i = true) : i < s.size := by
  rw [isUsed_eq_isSome, Option.isSome_iff_exists] at h
  obtain ⟨x, hx⟩ := h
  exact lt_size_of_node hx

theorem mem_usedFrom : j ∈ s.usedFrom i ↔ i ≤ j ∧ s.isUsed j = true := by
  rw [usedFrom, List.mem_filter, List.mem_range'_1]
  constructor
  · intro h
    exact ⟨h.1.1, h.2⟩
  · intro h
    have hlt := lt_size_of_isUsed h.2
    exact ⟨⟨h.1, by omega⟩, h.2⟩

theorem pairwise_usedFrom (s : SlotArray w K V) (i : Nat) :
    (s.usedFrom i).Pairwise (· < ·) := (List.pairwise_lt_range' ..).filter _

theorem usedFrom_of_used (h : s.isUsed i = true) : s.usedFrom i = i :: s.usedFrom (i + 1) := by
  have hsteps : s.size - i = s.size - (i + 1) + 1 := by
    have := lt_size_of_isUsed h
    omega
  rw [usedFrom, hsteps, List.range'_succ, List.filter_cons_of_pos h, usedFrom]

theorem usedFrom_of_not_used (h : ¬ s.isUsed i = true) : s.usedFrom i = s.usedFrom (i + 1) := by
  rcases Nat.lt_or_ge i s.size with hi | hi
  · have hsteps : s.size - i = s.size - (i + 1) + 1 := by omega
    rw [usedFrom, hsteps, List.range'_succ, List.filter_cons_of_neg h, usedFrom]
  · have hnone : s.size - i = 0 ∧ s.size - (i + 1) = 0 := by omega
    rw [usedFrom, usedFrom, hnone.1, hnone.2]
    rfl

/-- What is found by looking from slot `i` on is the first used slot. -/
theorem nextUsed_eq (s : SlotArray w K V) (steps i : Nat) (h : s.size ≤ steps + i) :
    (s.nextUsed steps i = none ∧ s.usedFrom i = []) ∨
      ∃ j, s.nextUsed steps i = some j ∧ s.usedFrom i = j :: s.usedFrom (j + 1) := by
  induction steps generalizing i with
  | zero =>
    have hnone : s.size - i = 0 := by omega
    refine .inl ⟨rfl, ?_⟩
    rw [usedFrom, hnone]
    rfl
  | succ steps ih =>
    rw [nextUsed]
    by_cases hi : s.isUsed i = true
    · rw [if_pos hi]
      exact .inr ⟨i, rfl, usedFrom_of_used hi⟩
    · rw [if_neg hi, usedFrom_of_not_used hi]
      exact ih (i + 1) (by omega)

theorem nextUsed_congr (h : s'.isUsed = s.isUsed) (steps i : Nat) :
    s'.nextUsed steps i = s.nextUsed steps i := by
  induction steps generalizing i with
  | zero => rfl
  | succ steps ih => rw [nextUsed, nextUsed, h, ih]

end SlotArray

/-! ## What a cursor has ahead -/

namespace Cursor

variable (c : Cursor) (s : SlotArray w K V)

/-- The slots that a cursor has not come to yet. -/
def ahead : List Nat := (s.usedFrom c.position).take c.remaining

/-- A cursor takes the first slot ahead of it, and counts it; where there is none, it stays at the
end. -/
theorem next_ahead : (c.next s).1 = (c.ahead s).head? ∧
    (c.next s).2.ahead s = (c.ahead s).tail ∧
    c.remaining = (c.next s).2.remaining + (c.ahead s).head?.toList.length := by
  unfold next
  by_cases hc : c.remaining = 0
  · have hnil : c.ahead s = [] := by rw [ahead, hc, List.take_zero]
    rw [if_pos hc, hnil]
    exact ⟨rfl, rfl, rfl⟩
  · rw [if_neg hc]
    obtain ⟨r, hr⟩ : ∃ r, c.remaining = r + 1 := ⟨c.remaining - 1, by omega⟩
    rcases s.nextUsed_eq (s.size - c.position) c.position (by omega) with
      ⟨hnone, hused⟩ | ⟨j, hj, hused⟩
    · have hnil : c.ahead s = [] := by rw [ahead, hused, List.take_nil]
      rw [hnone, hnil]
      refine ⟨rfl, ?_, rfl⟩
      show (s.usedFrom s.size).take c.remaining = []
      rw [SlotArray.usedFrom, Nat.sub_self]
      exact List.take_nil
    · have hcons : c.ahead s = j :: (s.usedFrom (j + 1)).take r := by
        rw [ahead, hused, hr, List.take_succ_cons]
      rw [hj, hcons, hr]
      exact ⟨rfl, rfl, rfl⟩

theorem exists_entry_of_next {i : Nat} {c' : Cursor} (h : c.next s = (some i, c')) :
    ∃ key value, s.entryAt i = some (key, value) := by
  obtain ⟨hnext, -, -⟩ := c.next_ahead s
  rw [h] at hnext
  have hmem := List.mem_of_mem_take (List.mem_of_mem_head? (Option.mem_def.mpr hnext.symm))
  obtain ⟨⟨key, value⟩, he⟩ :=
    SlotArray.isUsed_iff_entryAt.mp (SlotArray.mem_usedFrom.mp hmem).2
  exact ⟨key, value, he⟩

/-- A cursor at the end stays where it is. -/
theorem next_of_none {c' : Cursor} (h : c.next s = (none, c')) : c'.next s = (none, c') := by
  unfold next at h
  split at h
  · rename_i hc
    cases h
    rw [next, if_pos hc]
  · split at h
    · cases h
    · cases h
      unfold next
      rw [Nat.sub_self]
      split <;> rfl

theorem next_congr {s s' : SlotArray w K V} (hsize : s'.size = s.size)
    (hused : s'.isUsed = s.isUsed) : c.next s' = c.next s := by
  rw [next, next, SlotArray.nextUsed_congr hused, hsize]

end Cursor

/-! ## The tour -/

namespace Table

variable (t : Table w K V)

/-- The used slots that iteration goes to, in ascending order. -/
def tour : List Nat := (t.slots.usedFrom 1).take t.len

theorem length_tour : t.tour.length = min t.len (t.slots.usedFrom 1).length := List.length_take

theorem mem_tour_used {i : Nat} (h : i ∈ t.tour) : ∃ e, t.slots.entryAt i = some e :=
  SlotArray.isUsed_iff_entryAt.mp (SlotArray.mem_usedFrom.mp (List.mem_of_mem_take h)).2

theorem nodup_tour : t.tour.Nodup :=
  ((t.slots.pairwise_usedFrom 1).sublist (List.take_sublist ..)).imp Nat.ne_of_lt

theorem next_eq (c : Cursor) :
    t.next c = ((c.next t.slots).1.bind t.slots.entryAt, (c.next t.slots).2) := by
  unfold next
  rcases c.next t.slots with ⟨_ | i, c'⟩ <;> rfl

theorem steps_succ_cursor (n : Nat) :
    (t.steps (n + 1)).2 = ((t.steps n).2.next t.slots).2 := by
  rw [steps_succ, next_eq]

/-- The cursor after several requests has taken as many slots of the tour, or all of them. -/
theorem steps_ahead (n : Nat) : (t.steps n).2.ahead t.slots = t.tour.drop n ∧
    (t.steps n).2.remaining = t.len - min n t.tour.length := by
  have hlen := t.length_tour
  induction n with
  | zero => exact ⟨rfl, by rw [Nat.zero_min]; rfl⟩
  | succ n ih =>
    obtain ⟨hahead, hleft⟩ := ih
    obtain ⟨-, hrest, hcount⟩ := (t.steps n).2.next_ahead t.slots
    rw [hahead, List.tail_drop] at hrest
    rw [hahead, hleft, List.head?_drop] at hcount
    rw [steps_succ_cursor]
    refine ⟨hrest, ?_⟩
    by_cases hn : n < t.tour.length
    · rw [List.getElem?_eq_getElem hn] at hcount
      simp only [Option.toList_some, List.length_singleton] at hcount
      omega
    · rw [List.getElem?_eq_none (by omega)] at hcount
      simp only [Option.toList_none, List.length_nil] at hcount
      omega

/-- A request after several others comes to the next slot of the tour. -/
theorem next_steps (n : Nat) :
    (t.steps n).2.next t.slots = (t.tour[n]?, (t.steps (n + 1)).2) := by
  obtain ⟨hnext, -, -⟩ := (t.steps n).2.next_ahead t.slots
  rw [(t.steps_ahead n).1, List.head?_drop] at hnext
  rw [← hnext, steps_succ_cursor]

theorem steps_push (n : Nat) : (t.steps (n + 1)).1 =
    (t.steps n).1.push ((t.steps n).2.remaining, t.tour[n]?.bind t.slots.entryAt) := by
  rw [steps_succ, next_eq, next_steps]

/-- The answers to several requests. -/
theorem steps_toList (n : Nat) : (t.steps n).1.toList =
    (List.range n).map fun k =>
      (t.len - min k t.tour.length, t.tour[k]?.bind t.slots.entryAt) := by
  induction n with
  | zero => rfl
  | succ n ih =>
    rw [steps_push, Array.toList_push, ih, List.range_succ, List.map_append, (t.steps_ahead n).2]
    rfl

/-- Several requests yield the entries in as many slots of the tour. -/
theorem yielded_eq_filterMap (n : Nat) :
    t.yielded n = (t.tour.take n).filterMap t.slots.entryAt := by
  induction n with
  | zero => rfl
  | succ n ih =>
    rw [yielded, steps_push, Array.toList_push, List.filterMap_append, List.take_add_one,
      List.filterMap_append, ← ih, yielded]
    cases h : t.tour[n]? <;> rfl

theorem length_yielded (n : Nat) : (t.yielded n).length = min n t.tour.length := by
  rw [yielded_eq_filterMap, List.length_filterMap_eq_countP, ← List.length_take,
    List.countP_eq_length]
  intro i hi
  obtain ⟨e, he⟩ := t.mem_tour_used (List.mem_of_mem_take hi)
  rw [he]
  rfl

end Table

/-! ## Visits -/

namespace SlotArray

variable (s : SlotArray w K V) (l : List Nat) (f : K → V → V)

/-- The array with the values in some slots replaced by `f` of the key and the value. -/
def mapValuesAt : SlotArray w K V :=
  s.mapIdx fun i slot => if i ∈ l then slot.mapValue f else slot

theorem size_mapValuesAt : (s.mapValuesAt l f).size = s.size := Array.size_mapIdx

theorem getElem?_mapValuesAt (i : Nat) : (s.mapValuesAt l f)[i]? =
    s[i]?.map fun slot => if i ∈ l then slot.mapValue f else slot := Array.getElem?_mapIdx

theorem getElem?_mapValuesAt_of_notMem {i : Nat} (h : i ∉ l) :
    (s.mapValuesAt l f)[i]? = s[i]? := by
  rw [getElem?_mapValuesAt]
  simp only [if_neg h, Option.map_id']

theorem mapValuesAt_nil : s.mapValuesAt [] f = s := by
  apply Array.ext_getElem?
  intro i
  exact s.getElem?_mapValuesAt_of_notMem [] f List.not_mem_nil

theorem isUsed_mapValuesAt : (s.mapValuesAt l f).isUsed = s.isUsed := by
  funext i
  rw [isUsed, isUsed, getElem?_mapValuesAt]
  rcases s[i]? with _ | _ | _
  · rfl
  · by_cases hi : i ∈ l <;> simp [hi, Slot.mapValue, Slot.isUsed]
  · by_cases hi : i ∈ l <;> simp [hi, Slot.mapValue, Slot.isUsed]

/-- Arrays that differ in values alone are the same without them. -/
theorem mapValues_mapValuesAt :
    (s.mapValuesAt l f).mapValues (fun _ _ => ()) = s.mapValues fun _ _ => () := by
  apply Array.ext_getElem?
  intro i
  rw [getElem?_mapValues, getElem?_mapValues, getElem?_mapValuesAt, Option.map_map]
  congr 1
  funext slot
  by_cases hi : i ∈ l
  · rw [Function.comp_apply, if_pos hi]
    cases slot <;> rfl
  · rw [Function.comp_apply, if_neg hi]

theorem getElem?_updateEntry (i j : Nat) : (s.updateEntry i f)[j]? =
    if j = i then s[j]?.map (Slot.mapValue f) else s[j]? := by
  unfold updateEntry
  by_cases hji : j = i
  · subst hji
    rw [if_pos rfl]
    split
    · rename_i next key value hs
      have hj := (Array.getElem?_eq_some_iff.mp hs).1
      rw [Array.getElem?_setIfInBounds_self_of_lt hj, hs]
      rfl
    · rename_i hs
      cases h : s[j]? with
      | none => rfl
      | some slot =>
        cases slot with
        | free prev next => rfl
        | used next key value => exact absurd h (hs next key value)
  · rw [if_neg hji]
    split
    · exact Array.getElem?_setIfInBounds_ne (Ne.symm hji)
    · rfl

/-- One more slot with a new value. -/
theorem updateEntry_mapValuesAt {l : List Nat} {i : Nat} (hi : i ∉ l) :
    (s.mapValuesAt l f).updateEntry i f = s.mapValuesAt (l ++ [i]) f := by
  apply Array.ext_getElem?
  intro j
  rw [getElem?_updateEntry, getElem?_mapValuesAt _ (l ++ [i])]
  by_cases hji : j = i
  · subst hji
    have hmem : j ∈ l ++ [j] := List.mem_append_right l List.mem_cons_self
    simp only [if_pos, hmem, s.getElem?_mapValuesAt_of_notMem l f hi]
  · have hmem : j ∈ l ++ [i] ↔ j ∈ l := by simp [hji]
    simp only [if_neg hji, hmem, getElem?_mapValuesAt]

theorem entryAt_updateEntry (i : Nat) : (s.updateEntry i f).entryAt i =
    (s.entryAt i).map fun (key, value) => (key, f key value) := by
  rw [entryAt, entryAt, getElem?_updateEntry, if_pos rfl]
  rcases s[i]? with _ | _ | _ <;> rfl

end SlotArray

namespace Table

variable (t : Table w K V) (f : K → V → V)

/-- What a visit sees of an entry, and of what was left before it. -/
def seenOf (answer : Nat × Option (K × V)) : Option (Nat × K × V) :=
  answer.2.map fun (key, value) => (answer.1, key, f key value)

theorem visitFrom_none {x : Visit w K V} {c : Cursor} (steps : Nat)
    (h : x.cursor.next x.table.slots = (none, c)) :
    visitFrom f (steps + 1) x = { x with cursor := c } := by
  obtain ⟨seen, cursor, ⟨policy, hash, slots, len, mask⟩⟩ := x
  rw [visitFrom]
  simp only [h]

theorem visitFrom_some {x : Visit w K V} {c : Cursor} {i : Nat} {key : K} {value : V}
    (steps : Nat) (h : x.cursor.next x.table.slots = (some i, c))
    (hi : x.table.slots.entryAt i = some (key, value)) :
    visitFrom f (steps + 1) x = visitFrom f steps
      ⟨x.seen.push (x.cursor.remaining, key, f key value), c,
        { x.table with slots := x.table.slots.updateEntry i f }⟩ := by
  obtain ⟨seen, cursor, ⟨policy, hash, slots, len, mask⟩⟩ := x
  have hentry : (slots.updateEntry i f).entryAt i = some (key, f key value) := by
    rw [SlotArray.entryAt_updateEntry, hi]
    rfl
  rw [visitFrom]
  simp only [h, hentry]

/-- The last step of a visit can be taken apart. -/
theorem visitFrom_succ (steps : Nat) (x : Visit w K V) :
    visitFrom f (steps + 1) x = visitFrom f 1 (visitFrom f steps x) := by
  induction steps generalizing x with
  | zero => rfl
  | succ steps ih =>
    rcases h : x.cursor.next x.table.slots with ⟨_ | i, c⟩
    · have hend : ({ x with cursor := c } : Visit w K V).cursor.next x.table.slots = (none, c) :=
        x.cursor.next_of_none _ h
      rw [visitFrom_none f _ h, visitFrom_none f _ h, visitFrom_none f 0 hend]
    · obtain ⟨key, value, hi⟩ := x.cursor.exists_entry_of_next _ h
      rw [visitFrom_some f _ h hi, visitFrom_some f _ h hi, ih]

/-- A visit moves the cursor like as many requests, sees what they are answered, and replaces the
values in the slots of the tour that they come to. -/
theorem visit_eq (n : Nat) : t.visit (some n) f =
    ⟨(t.steps n).1.filterMap (seenOf f), (t.steps n).2,
      { t with slots := t.slots.mapValuesAt (t.tour.take n) f }⟩ := by
  have hvisit : ∀ n, t.visit (some n) f = visitFrom f n ⟨#[], t.start, t⟩ := fun n => rfl
  induction n with
  | zero =>
    rw [hvisit, visitFrom, List.take_zero, SlotArray.mapValuesAt_nil]
    rfl
  | succ n ih =>
    rw [hvisit, visitFrom_succ, ← hvisit, ih]
    -- the cursor does not see that values were replaced
    have hnext : (t.steps n).2.next (t.slots.mapValuesAt (t.tour.take n) f) =
        (t.tour[n]?, (t.steps (n + 1)).2) := by
      rw [Cursor.next_congr _ (t.slots.size_mapValuesAt _ f) (t.slots.isUsed_mapValuesAt _ f),
        next_steps]
    rw [List.take_add_one, steps_push]
    cases hn : t.tour[n]? with
    | none =>
      rw [hn] at hnext
      have hseen : seenOf f ((t.steps n).2.remaining, (none : Option Nat).bind t.slots.entryAt) =
          none := rfl
      rw [visitFrom_none f 0 hnext, Array.filterMap_push_none hseen (Array.size_push _),
        Option.toList_none, List.append_nil]
    | some i =>
      rw [hn] at hnext
      -- the slot is visited for the first time
      have hnew : i ∉ t.tour.take n := by
        intro hmem
        obtain ⟨m, hm, hmi⟩ := List.mem_take_iff_getElem.mp hmem
        obtain ⟨hlt, hni⟩ := List.getElem?_eq_some_iff.mp hn
        have := (List.Nodup.getElem_inj_iff t.nodup_tour).mp (hmi.trans hni.symm)
        omega
      obtain ⟨⟨key, value⟩, he⟩ := t.mem_tour_used (List.mem_of_getElem? hn)
      have he' : (t.slots.mapValuesAt (t.tour.take n) f).entryAt i = some (key, value) := by
        rw [SlotArray.entryAt, t.slots.getElem?_mapValuesAt_of_notMem _ f hnew]
        exact he
      have hseen : seenOf f ((t.steps n).2.remaining, (some i).bind t.slots.entryAt) =
          some ((t.steps n).2.remaining, key, f key value) := by
        rw [Option.bind_some, he]
        rfl
      rw [visitFrom_some f 0 hnext he', Array.filterMap_push_some hseen (Array.size_push _),
        SlotArray.updateEntry_mapValuesAt _ f hnew]
      rfl

/-! ## Tables in order -/

variable {t}

namespace LaidOut

variable {L : Layout} {key : K} {value : V}

/-- On a table in order, the tour goes to all entries. -/
theorem length_tour (hL : t.LaidOut L) : t.tour.length = t.len := by
  have hlen := t.length_yielded t.len
  have htour := t.length_tour
  rw [t.yielded_eq_entries le_rfl, length_entries hL.len_eq_usedCount] at hlen
  omega

variable [DecidableEq K]

theorem get_eq_some (hL : t.LaidOut L) {i : Nat} {next : Link w}
    (hs : t.slots[i]? = some (.used next key value)) : t.get key = .ok (some value) := by
  rw [get, hL.find_eq_some hs, ok_bind]
  simp only [SlotArray.value_eq hs, ok_bind]
  rfl

theorem get_eq_none (hL : t.LaidOut L) (habsent : ∀ i, ¬ t.KeyAt key i) :
    t.get key = .ok none := by
  rw [get, hL.find_eq_none habsent]
  rfl

/-- After a visit, a lookup gives the new value of a key that was visited, and otherwise the value
that it gave before. -/
theorem get_visit (hL : t.LaidOut L) (n : Nat) (f : K → V → V) (key : K)
    (hL' : (t.visit (some n) f).table.LaidOut L) :
    ∃ r, t.get key = .ok r ∧ (t.visit (some n) f).table.get key =
      .ok (r.map fun value => if key ∈ (t.yielded n).map Prod.fst then f key value else value) := by
  have hslots : ∀ i, (t.visit (some n) f).table.slots[i]? =
      t.slots[i]?.map fun slot => if i ∈ t.tour.take n then slot.mapValue f else slot := by
    intro i
    rw [visit_eq]
    exact t.slots.getElem?_mapValuesAt _ f i
  by_cases hkey : ∃ i, t.KeyAt key i
  · obtain ⟨i, next, value, hs⟩ := hkey
    have hi : t.slots.node.key i = some key := keyAt_iff.mp ⟨next, value, hs⟩
    -- the key was visited just if its slot was, since no other slot holds it
    have hvisited : key ∈ (t.yielded n).map Prod.fst ↔ i ∈ t.tour.take n := by
      rw [yielded_eq_filterMap, List.mem_map]
      constructor
      · rintro ⟨⟨k, v⟩, hmem, rfl⟩
        obtain ⟨j, hj, hentry⟩ := List.mem_filterMap.mp hmem
        obtain ⟨slot, hslot, he⟩ := Option.bind_eq_some_iff.mp hentry
        cases slot with
        | free prev next => cases he
        | used next' k' v' =>
          cases he
          rwa [(hL.keyAt_eq_iff hi j).mpr ⟨next', v, hslot⟩]
      · intro hmem
        refine ⟨(key, value), List.mem_filterMap.mpr ⟨i, hmem, ?_⟩, rfl⟩
        rw [SlotArray.entryAt, hs]
        rfl
    have hs' := hslots i
    rw [hs, Option.map_some] at hs'
    refine ⟨some value, hL.get_eq_some hs, ?_⟩
    simp only [hvisited]
    split at hs'
    · rename_i hmem
      rw [Option.map_some, if_pos hmem]
      exact hL'.get_eq_some hs'
    · rename_i hmem
      rw [Option.map_some, if_neg hmem]
      exact hL'.get_eq_some hs'
  · rw [not_exists] at hkey
    refine ⟨none, hL.get_eq_none hkey, hL'.get_eq_none fun i hi => ?_⟩
    obtain ⟨next, value, hs⟩ := hi
    rw [hslots, Option.map_eq_some_iff] at hs
    obtain ⟨slot, hslot, hvalue⟩ := hs
    cases slot with
    | free prev next' => split at hvalue <;> cases hvalue
    | used next' k v => split at hvalue <;> cases hvalue <;> exact hkey i ⟨_, _, hslot⟩

end LaidOut

/-! ## Iteration, in any state and in order -/

/-- What asking for entries comes to, whatever state the table is in. -/
structure AsksAlongTour (t : Table w K V) : Prop where
  /-- The used slots behind the anchor are listed in ascending order; the tour has as many of the
  first ones as the table counts. -/
  ascending : (t.slots.usedFrom 1).Pairwise (· < ·)
  mem_iff : ∀ i, i ∈ t.slots.usedFrom 1 ↔ 1 ≤ i ∧ t.slots.isUsed i = true
  /-- A request is answered with the entry of the next slot of the tour, or with none behind its
  end; before it, as many entries are left as the table counts beyond those that were yielded. -/
  answers : ∀ n, (t.steps n).1.toList = (List.range n).map fun k =>
    (t.len - (t.yielded k).length, t.tour[k]?.bind t.slots.entryAt)
  yielded : ∀ n, (t.yielded n).length = min n (min t.len (t.slots.usedFrom 1).length)
  left : ∀ n, (t.steps n).2.remaining = t.len - (t.yielded n).length

/-- What replacing the values of the first `n` entries comes to, whatever state the table is in. -/
structure VisitsAlongTour [DecidableEq K] (t : Table w K V) (n : Nat) (f : K → V → V) :
    Prop where
  /-- The entries that are yielded are visited, with the same numbers left. -/
  seen : (t.visit (some n) f).seen.toList = (t.steps n).1.toList.filterMap fun (left, entry) =>
    entry.map fun (key, value) => (left, key, f key value)
  cursor : (t.visit (some n) f).cursor = (t.steps n).2
  /-- The next request comes to the same slot, or to the end, as without the visit. -/
  next : (t.visit (some n) f).cursor.next (t.visit (some n) f).table.slots =
    (t.tour[n]?, (t.steps (n + 1)).2)
  /-- The values in the first `n` slots of the tour are replaced, and nothing else. -/
  table : (t.visit (some n) f).table =
    { t with slots := t.slots.mapValuesAt (t.tour.take n) f }
  check : (t.visit (some n) f).table.check = t.check

/-- What iteration comes to on a table in order. -/
structure ExhaustsEntries [DecidableEq K] (t : Table w K V) : Prop where
  /-- Every entry is yielded, and no key twice. -/
  mem_iff : ∀ n, t.len ≤ n → ∀ key value,
    (key, value) ∈ t.yielded n ↔
      ∃ (i : Nat) (next : Link w), t.slots[i]? = some (.used next key value)
  distinct : ∀ n, (t.yielded n).Pairwise fun a b => a.1 ≠ b.1
  /-- The number left is that of the entries to come, and none in the end. -/
  coming : ∀ n m, t.len ≤ n + m →
    (t.yielded (n + m)).length = (t.yielded n).length + (t.steps n).2.remaining
  ended : ∀ n, t.len ≤ n → (t.steps n).2.remaining = 0
  get : ∀ n f key, ∃ r, t.get key = .ok r ∧ (t.visit (some n) f).table.get key =
    .ok (r.map fun value => if key ∈ (t.yielded n).map Prod.fst then f key value else value)

theorem visitsAlongTour [DecidableEq K] (t : Table w K V) (n : Nat) (f : K → V → V) :
    t.VisitsAlongTour n f where
  seen := by
    rw [visit_eq, Array.toList_filterMap]
    rfl
  cursor := by rw [visit_eq]
  next := by
    rw [visit_eq, Cursor.next_congr _ (t.slots.size_mapValuesAt _ f)
      (t.slots.isUsed_mapValuesAt _ f), next_steps]
  table := by rw [visit_eq]
  check := by
    rw [visit_eq, ← check_mapValues _ fun _ _ => (), ← check_mapValues t fun _ _ => ()]
    unfold mapValues
    rw [SlotArray.mapValues_mapValuesAt]

/-- Iteration follows the tour of the table, whatever state the table is in, with and without new
values; new values change neither the way nor the verdict of an examination. On a table that passes
one, the tour comes to every entry once and the number left is that of the entries to come; after a
visit, lookups give the new values of the keys that it came to. -/
theorem iterates_exactly [DecidableEq K] (t : Table w K V) :
    t.AsksAlongTour ∧ (∀ n f, t.VisitsAlongTour n f) ∧
      (t.check.outcome = .ok (.ok ()) → t.ExhaustsEntries) := by
  refine ⟨?_, t.visitsAlongTour, fun hcheck => ?_⟩
  · have hleft : ∀ n, t.len - min n t.tour.length = t.len - (t.yielded n).length := fun n => by
      rw [length_yielded]
    exact {
      ascending := t.slots.pairwise_usedFrom 1
      mem_iff := fun i => SlotArray.mem_usedFrom
      answers := fun n => by
        rw [steps_toList]
        simp only [hleft]
      yielded := fun n => by rw [length_yielded, length_tour]
      left := fun n => by rw [(t.steps_ahead n).2, hleft] }
  · obtain ⟨L, hL⟩ := inOrder_iff.mp (check_eq_ok_iff.mp hcheck)
    have htour := hL.length_tour
    exact {
      mem_iff := fun n hn key value => by
        rw [t.yielded_eq_entries hn, hL.mem_entries_iff]
        exact exists_congr fun i => Nodes.entry_eq_some_iff.trans
          (exists_congr fun next => SlotArray.node_eq_some_iff)
      distinct := fun n => by
        rw [(t.steps_spec n).1]
        exact hL.entries_pairwise.sublist (List.take_sublist ..)
      coming := fun n m h => by
        rw [length_yielded, length_yielded, (t.steps_ahead n).2]
        omega
      ended := fun n hn => by
        rw [(t.steps_ahead n).2]
        omega
      get := fun n f key => by
        obtain ⟨s, hs, hL'⟩ := hL.visit_spec (some n) f
        exact hL.get_visit n f key (hs ▸ hL') }

/-- The first and the last slot are free, and the first of the two entries between them gets a new
value. -/
theorem iterates_exactly_two_entries : ∃ t : Table .bits16 Nat Nat,
    t.check.outcome = .ok (.ok ()) ∧ t.yielded 5 = [(1, 10), (2, 20)] ∧ t.ExhaustsEntries ∧
      (t.visit (some 1) fun _ value => value + 1).table.get 1 = .ok (some 11) ∧
      (t.visit (some 1) fun _ value => value + 1).table.get 2 = .ok (some 20) := by
  let t : Table .bits16 Nat Nat := ⟨.fixed, UInt64.ofNat,
    #[.free (.ofIndex 4) (.ofSuccessor 1), .free .null (.ofSuccessor 4), .used .null 1 10,
      .used .null 2 20, .free (.ofIndex 1) (.ofSuccessor 0)], 2, 3⟩
  have hcheck : t.check.outcome = .ok (.ok ()) := by cbv
  have hexhausts := (iterates_exactly t).2.2 hcheck
  have hget : t.get 1 = .ok (some 10) ∧ t.get 2 = .ok (some 20) := by decide
  refine ⟨t, hcheck, by decide, hexhausts, ?_, ?_⟩
  · obtain ⟨r, hr, hvisit⟩ := hexhausts.get 1 (fun _ value => value + 1) 1
    rw [hget.1] at hr
    cases hr
    exact hvisit
  · obtain ⟨r, hr, hvisit⟩ := hexhausts.get 1 (fun _ value => value + 1) 2
    rw [hget.2] at hr
    cases hr
    exact hvisit

end Table

end HomeChain
