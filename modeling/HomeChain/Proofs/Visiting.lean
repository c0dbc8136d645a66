import HomeChain.ChainStats
import HomeChain.Proofs.Insertion
import HomeChain.Table.Iteration

/-!
# Going over all slots

Two operations go over the whole array: a visit replaces values and leaves every link and key
where it is, so a table stays in order under it (`visit_spec`); the statistics walk along each
chain from its head, and on a table in order the walks end (`chainStats_eq`).
-/

namespace HomeChain

variable {w : LinkWidth} {K V : Type}

/-! ## Visits -/

/-- What a visit does to one slot does not change the shape. -/
theorem SlotArray.SameShape.updateEntry (s : SlotArray w K V) (i : Nat) (f : K → V → V) :
    s.SameShape (s.updateEntry i f) := by
  unfold SlotArray.updateEntry
  split
  · rename_i next k v hs
    exact .setValue hs (f k v)
  · exact refl s

namespace Table

variable {t : Table w K V} {L : Layout}

/-- However far it gets, a visit changes the slots alone, and not their shape. -/
theorem visitFrom_spec (f : K → V → V) (steps : Nat) (x : Visit w K V) :
    ∃ s', (visitFrom f steps x).table = { x.table with slots := s' } ∧
      x.table.slots.SameShape s' := by
  induction steps generalizing x with
  | zero => exact ⟨x.table.slots, rfl, .refl _⟩
  | succ steps ih =>
    obtain ⟨seen, cursor, ⟨policy, hash, slots, len, mask⟩⟩ := x
    unfold visitFrom
    split
    · exact ⟨slots, rfl, .refl _⟩
    · rename_i i after hnext
      obtain ⟨s', hs', hshape⟩ := ih ⟨_, after, ⟨policy, hash, slots.updateEntry i f, len, mask⟩⟩
      exact ⟨s', hs', (SlotArray.SameShape.updateEntry slots i f).trans hshape⟩

/-- A table in order stays in order under a visit. -/
theorem LaidOut.visit_spec (hL : t.LaidOut L) (limit : Option Nat) (f : K → V → V) :
    ∃ s', (t.visit limit f).table = { t with slots := s' } ∧
      ({ t with slots := s' } : Table w K V).LaidOut L := by
  obtain ⟨s', hs', hshape⟩ := visitFrom_spec f (limit.getD t.slots.size) ⟨#[], t.start, t⟩
  exact ⟨s', hs', hL.sameShape hshape⟩

end Table

/-! ## Statistics -/

/-- A fold of steps that succeed is a fold. -/
theorem foldlM_eq_ok {ε α β : Type} {f : β → α → Except ε β} {g : β → α → β} {l : List α}
    (h : ∀ a ∈ l, ∀ b, f b a = .ok (g b a)) (b : β) : l.foldlM f b = .ok (l.foldl g b) := by
  induction l generalizing b with
  | nil => rfl
  | cons a l ih =>
    rw [List.foldlM_cons, h a List.mem_cons_self, ok_bind,
      ih (fun a' ha' => h a' (List.mem_cons_of_mem a ha')), List.foldl_cons]

/-- What a slot adds to a tally: the chain that starts there, if it has members, or else an entry
outside its home slot, if the slot is used. -/
def ChainStats.Tally.add (tally : Tally) (used : Bool) (length : Nat) : Tally :=
  if 0 < length then
    { tally with
      chains := tally.chains + 1
      histogram := count tally.histogram length }
  else if used then { tally with displaced := tally.displaced + 1 }
  else tally

namespace Table

variable {t : Table w K V} {L : Layout}

/-- What the slots of a table with the layout `L` add up to. -/
def tallyOf (t : Table w K V) (L : Layout) (l : List Nat) : ChainStats.Tally :=
  l.foldl (fun tally i => tally.add (t.slots.isUsed i) (L.chain i).length) ⟨0, 0, #[]⟩

/-- What a slot adds to the tally of a table in order. -/
theorem LaidOut.tallySlot_eq (hL : t.LaidOut L) (tally : ChainStats.Tally) {i : Nat}
    (hi : i ≤ t.capacity) : t.tallySlot tally i =
      .ok (tally.add (t.slots.isUsed i) (L.chain i).length) := by
  have hsize := hL.size_eq
  have hlt : i < t.slots.size := by omega
  have hget : t.slots[i]? = some t.slots[i] := Array.getElem?_eq_getElem hlt
  unfold tallySlot
  rw [SlotArray.read_eq hget, ok_bind, SlotArray.isUsed, hget]
  cases hs : t.slots[i] with
  | free prev next =>
    rw [hs] at hget
    have hnil : L.chain i = [] := hL.chains.eq_nil fun k hk => by
      obtain ⟨_, _, hused⟩ := SlotArray.key_eq_some_iff.mp hk
      rw [hget] at hused
      cases hused
    rw [hnil]
    rfl
  | used next k v =>
    rw [hs] at hget
    -- only the head of a chain is walked from
    by_cases hk : t.home k = i
    · obtain ⟨rest, hrest⟩ := hL.chains.eq_cons (hL.mem_chain_iff.mpr ⟨next, k, v, hget, hk⟩)
      obtain ⟨hroute, h0, hlen⟩ := hL.route_from (a := []) hrest
      have hlength := SlotArray.chainLength_route t.slots.size 0 hroute h0 hlen
      rw [Nat.zero_add] at hlength
      simp only [if_pos hk, hlength, ok_bind, hrest, List.length_cons, ChainStats.Tally.add,
        Nat.succ_pos, if_true]
      rfl
    · have hnil : L.chain i = [] := hL.chains.eq_nil fun k' hk' => by
        obtain ⟨_, _, hused⟩ := SlotArray.key_eq_some_iff.mp hk'
        rw [hget] at hused
        cases hused
        exact hk
      rw [hnil]
      simp only [if_neg hk]
      rfl

/-- The statistics of a table in order run into no fault, and are read off its layout. -/
theorem LaidOut.chainStats_eq (hL : t.LaidOut L) : t.chainStats = .ok {
    len := t.len
    capacity := t.capacity
    chains := (t.tallyOf L (List.range' 1 t.capacity)).chains
    longest := (t.tallyOf L (List.range' 1 t.capacity)).histogram.size
    displaced := (t.tallyOf L (List.range' 1 t.capacity)).displaced
    histogram := (t.tallyOf L (List.range' 1 t.capacity)).histogram
    loadFactor := ChainStats.toFloat t.len / ChainStats.toFloat t.capacity } := by
  have hfold : (List.range' 1 t.capacity).foldlM t.tallySlot ⟨0, 0, #[]⟩ =
      .ok (t.tallyOf L (List.range' 1 t.capacity)) := by
    refine foldlM_eq_ok (fun i hi tally => hL.tallySlot_eq tally ?_) _
    rw [List.mem_range'_1] at hi
    omega
  unfold chainStats
  rw [hfold]
  rfl

end Table

end HomeChain
