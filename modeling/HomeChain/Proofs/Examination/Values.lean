import HomeChain.Consistency.Check
import HomeChain.Proofs.SlotView

/-!
# An examination reads no values

Every slot may get another value, even one of another type: an examination takes the same steps and
comes to the same verdict, whatever state the table is in,

  `(t.mapValues f).check = t.check`.

So tables whose slots differ in their values alone cannot be told apart by an examination.
-/

namespace HomeChain

variable {w : LinkWidth} {K V W : Type}

/-- The slot with its value replaced by `f` of the key and the value, if it holds an entry. -/
def Slot.mapValue (f : K → V → W) : Slot w K V → Slot w K W
  | free prev next => free prev next
  | used next key value => used next key (f key value)

/-- The array with all values replaced. -/
def SlotArray.mapValues (s : SlotArray w K V) (f : K → V → W) : SlotArray w K W :=
  s.map (Slot.mapValue f)

/-- The table with all values replaced. -/
def Table.mapValues (t : Table w K V) (f : K → V → W) : Table w K W :=
  ⟨t.policy, t.hash, t.slots.mapValues f, t.len, t.mask⟩

theorem Slot.entry?_mapValue (slot : Slot w K V) (f : K → V → W) :
    Slot.entry? (slot.mapValue f) = slot.entry?.map fun e => (e.1, f e.1 e.2) := by
  cases slot <;> rfl

namespace SlotArray

variable (s : SlotArray w K V) (f : K → V → W)

theorem size_mapValues : (s.mapValues f).size = s.size := Array.size_map

theorem getElem?_mapValues (i : Nat) : (s.mapValues f)[i]? = s[i]?.map (Slot.mapValue f) :=
  Array.getElem?_map

theorem isUsed_mapValues (i : Nat) : (s.mapValues f).isUsed i = s.isUsed i := by
  rw [isUsed, isUsed, getElem?_mapValues]
  rcases s[i]? with _ | _ | _ <;> rfl

theorem neighbours_mapValues (i : Nat) : (s.mapValues f).neighbours i = s.neighbours i := by
  rw [neighbours, neighbours, getElem?_mapValues]
  rcases s[i]? with _ | _ | _ <;> rfl

theorem scan_mapValue (capacity i used : Nat) (l : List (Slot w K V)) :
    scan capacity i used (l.map (Slot.mapValue f)) = scan capacity i used l := by
  induction l generalizing i used with
  | nil => rfl
  | cons slot l ih =>
    rw [List.map_cons]
    cases slot with
    | free prev next => rw [Slot.mapValue, scan, scan, ih]
    | used next key value => rw [Slot.mapValue, scan, scan, ih]

theorem walkFreeList_mapValues (d : Direction) (steps i : Nat) (seen : Array Bool) :
    (s.mapValues f).walkFreeList d steps i seen = s.walkFreeList d steps i seen := by
  induction steps generalizing i seen with
  | zero => rw [walkFreeList, walkFreeList, neighbours_mapValues]
  | succ steps ih =>
    rw [walkFreeList, walkFreeList]
    simp only [neighbours_mapValues, isUsed_mapValues, ih]

theorem checkFreeList_mapValues (free : Nat) (d : Direction) :
    (s.mapValues f).checkFreeList free d = s.checkFreeList free d := by
  rw [checkFreeList, checkFreeList, walkFreeList_mapValues, size_mapValues]

end SlotArray

namespace Table

variable (t : Table w K V) (f : K → V → W)

theorem home_mapValues : (t.mapValues f).home = t.home := rfl

theorem toList_mapValues :
    (t.mapValues f).slots.toList = t.slots.toList.map (Slot.mapValue f) := Array.toList_map

theorem entries_mapValues :
    (t.mapValues f).entries = t.entries.map fun e => (e.1, f e.1 e.2) := by
  have hentry : Slot.entry? ∘ Slot.mapValue f =
      fun slot : Slot w K V => slot.entry?.map fun e => (e.1, f e.1 e.2) :=
    funext fun slot => slot.entry?_mapValue f
  rw [entries, entries, toList_mapValues, ← List.map_drop, List.filterMap_map, hentry,
    ← List.map_filterMap, List.map_take]
  rfl

theorem checkShape_mapValues : (t.mapValues f).checkShape = t.checkShape := by
  have hsize : (t.mapValues f).slots.size = t.slots.size := t.slots.size_mapValues f
  have hcapacity : (t.mapValues f).capacity = t.capacity := rfl
  have hlen : (t.mapValues f).len = t.len := rfl
  unfold checkShape
  simp only [hsize, hcapacity, hlen, toList_mapValues, SlotArray.scan_mapValue, entries_mapValues,
    List.length_map]

theorem claimChain_mapValues (head steps i : Nat) (claimed : Array Bool) :
    (t.mapValues f).claimChain head steps i claimed = t.claimChain head steps i claimed := by
  induction steps generalizing i claimed with
  | zero => rfl
  | succ steps ih =>
    have hget : (t.mapValues f).slots[i]? = t.slots[i]?.map (Slot.mapValue f) :=
      t.slots.getElem?_mapValues f i
    rw [claimChain, claimChain, hget]
    rcases t.slots[i]? with _ | _ | ⟨next, key, value⟩
    · rfl
    · rfl
    · simp only [Option.map_some, Slot.mapValue, home_mapValues, ih]

theorem claimChains_mapValues (l : List Nat) (chains : Nat) (claimed : Array Bool) :
    (t.mapValues f).claimChains l chains claimed = t.claimChains l chains claimed := by
  induction l generalizing chains claimed with
  | nil => rfl
  | cons head l ih =>
    have hget : (t.mapValues f).slots[head]? = t.slots[head]?.map (Slot.mapValue f) :=
      t.slots.getElem?_mapValues f head
    have hsize : (t.mapValues f).slots.size = t.slots.size := t.slots.size_mapValues f
    rw [claimChains, claimChains, hget]
    rcases t.slots[head]? with _ | _ | ⟨next, key, value⟩
    · rfl
    · exact ih chains claimed
    · simp only [Option.map_some, Slot.mapValue, home_mapValues, claimChain_mapValues, hsize, ih]

variable [DecidableEq K]

theorem checkKeys_mapValues (claimed : Array Bool) (l : List Nat) (seen : Array (List K)) :
    (t.mapValues f).checkKeys claimed l seen = t.checkKeys claimed l seen := by
  induction l generalizing seen with
  | nil => rfl
  | cons i l ih =>
    have hget : (t.mapValues f).slots[i]? = t.slots[i]?.map (Slot.mapValue f) :=
      t.slots.getElem?_mapValues f i
    rw [checkKeys, checkKeys, hget]
    rcases t.slots[i]? with _ | _ | ⟨next, key, value⟩
    · rfl
    · exact ih seen
    · simp only [Option.map_some, Slot.mapValue, home_mapValues, ih]

/-- An examination does not depend on the values. -/
theorem check_mapValues : (t.mapValues f).check = t.check := by
  have hfree : ∀ free d, (t.mapValues f).slots.checkFreeList free d =
      t.slots.checkFreeList free d := fun free d => t.slots.checkFreeList_mapValues f free d
  have hcapacity : (t.mapValues f).capacity = t.capacity := rfl
  have hindices : (t.mapValues f).indices = t.indices := rfl
  have hlen : (t.mapValues f).len = t.len := rfl
  unfold check
  simp only [checkShape_mapValues, hfree, hcapacity, hindices, hlen, claimChains_mapValues,
    checkKeys_mapValues]

end Table

end HomeChain
