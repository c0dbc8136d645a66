import HomeChain.FreeList
import HomeChain.Proofs.LinkCodec
import Mathlib.Logic.Function.Basic

/-!
# Two views of a slot array

What an array holds is seen through two partial functions on indices that never meet: `node`
gives the link and the entry of a used slot, `links` the two links of a free one. Overwriting
slot `i` updates both views at `i`,

  `(s.setIfInBounds i slot).node = Function.update s.node i slot.node?`,

and the operations on single slots are such overwritings, where they do not fault.
-/

namespace HomeChain

/-! ## Sequencing -/

@[simp] theorem ok_bind {ε α β : Type} (a : α) (f : α → Except ε β) :
    (Except.ok a >>= f) = f a := rfl

/-- A sequence ends with a result just if both parts do. -/
theorem bind_eq_ok_iff {ε α β : Type} {x : Except ε α} {f : α → Except ε β} {b : β} :
    x >>= f = .ok b ↔ ∃ a, x = .ok a ∧ f a = .ok b := by
  cases x with
  | error e =>
    constructor
    · intro h
      cases h
    · intro h
      obtain ⟨a, h, -⟩ := h
      cases h
  | ok a =>
    constructor
    · intro h
      exact ⟨a, rfl, h⟩
    · intro h
      obtain ⟨a', h, h'⟩ := h
      cases h
      exact h'

@[simp] theorem pure_eq_ok {α : Type} (a : α) : (pure a : Except Fault α) = .ok a := rfl

namespace Slot

variable {w : LinkWidth} {K V : Type}

/-- The chain link and the entry of a used slot. -/
def node? : Slot w K V → Option (Link w × K × V)
  | free .. => none
  | used next key value => some (next, key, value)

/-- The predecessor link and the successor link of a free slot. -/
def links? : Slot w K V → Option (Link w × Link w)
  | free prev next => some (prev, next)
  | used .. => none

theorem isUsed_eq (slot : Slot w K V) : slot.isUsed = slot.node?.isSome := by
  cases slot <;> rfl

theorem entry?_eq (slot : Slot w K V) : slot.entry? = slot.node?.map Prod.snd := by
  cases slot <;> rfl

end Slot

/-- The used slots of an array, by index. -/
abbrev Nodes (w : LinkWidth) (K V : Type) := Nat → Option (Link w × K × V)

/-- The slot that the chain link of slot `i` names. -/
def Nodes.succ {w : LinkWidth} {K V : Type} (n : Nodes w K V) (i : Nat) : Option Nat :=
  (n i).bind fun x => x.1.index?

/-- The used slot `i` gets another chain link. -/
def Nodes.relink {w : LinkWidth} {K V : Type} (n : Nodes w K V) (i : Nat) (l : Link w) :
    Nodes w K V :=
  Function.update n i ((n i).map fun x => (l, x.2))

namespace SlotArray

variable {w : LinkWidth} {K V : Type} {s : SlotArray w K V} {i j : Nat}

/-- What the used slot `i` holds. -/
def node (s : SlotArray w K V) : Nodes w K V := fun i => s[i]?.bind Slot.node?

/-- The two links of the free slot `i`. -/
def links (s : SlotArray w K V) (i : Nat) : Option (Link w × Link w) := s[i]?.bind Slot.links?

/-- The slot behind the free slot `i` on the free list. -/
def freeSucc (s : SlotArray w K V) (i : Nat) : Option Nat :=
  (s.links i).bind fun x => x.2.successor?

/-- The slot in front of the free slot `i` on the free list. -/
def freePred (s : SlotArray w K V) (i : Nat) : Option Nat :=
  (s.links i).bind fun x => x.1.index?

theorem node_eq_some_iff {next : Link w} {k : K} {v : V} :
    s.node i = some (next, k, v) ↔ s[i]? = some (.used next k v) := by
  rw [node]
  rcases s[i]? with _ | _ | _ <;> simp [Slot.node?]

theorem links_eq_some_iff {prev next : Link w} :
    s.links i = some (prev, next) ↔ s[i]? = some (.free prev next) := by
  rw [links]
  rcases s[i]? with _ | _ | _ <;> simp [Slot.links?]

theorem lt_size_of_node {x : Link w × K × V} (h : s.node i = some x) : i < s.size := by
  obtain ⟨next, k, v⟩ := x
  exact (Array.getElem?_eq_some_iff.mp (node_eq_some_iff.mp h)).1

theorem lt_size_of_links {x : Link w × Link w} (h : s.links i = some x) : i < s.size := by
  obtain ⟨prev, next⟩ := x
  exact (Array.getElem?_eq_some_iff.mp (links_eq_some_iff.mp h)).1

theorem node_eq_none_of_links {x : Link w × Link w} (h : s.links i = some x) :
    s.node i = none := by
  obtain ⟨prev, next⟩ := x
  rw [node, links_eq_some_iff.mp h]
  rfl

theorem links_eq_none_of_node {x : Link w × K × V} (h : s.node i = some x) :
    s.links i = none := by
  obtain ⟨next, k, v⟩ := x
  rw [links, node_eq_some_iff.mp h]
  rfl

/-- A slot that is not used is free. -/
theorem exists_links_of_node_eq_none (hi : i < s.size) (h : s.node i = none) :
    ∃ prev next, s[i]? = some (.free prev next) := by
  rw [node, Array.getElem?_eq_getElem hi] at h
  rw [Array.getElem?_eq_getElem hi]
  cases hslot : s[i] with
  | free prev next => exact ⟨prev, next, rfl⟩
  | used next k v =>
    rw [hslot] at h
    cases h

theorem isUsed_eq_isSome (s : SlotArray w K V) (i : Nat) : s.isUsed i = (s.node i).isSome := by
  rw [isUsed, node]
  cases s[i]? with
  | none => rfl
  | some slot => exact slot.isUsed_eq

theorem isUsed_iff {s : SlotArray w K V} {i : Nat} : s.isUsed i = true ↔ s.node i ≠ none := by
  rw [isUsed_eq_isSome, Option.isSome_iff_ne_none]

theorem isUsed_eq_false_iff {s : SlotArray w K V} {i : Nat} :
    s.isUsed i = false ↔ s.node i = none := by
  rw [isUsed_eq_isSome, Option.isSome_eq_false_iff, Option.isNone_iff_eq_none]

/-- A slot of the array is free if it is not used. -/
theorem free_iff : (∃ prev next, s[i]? = some (.free prev next)) ↔
    i < s.size ∧ s.node i = none := by
  constructor
  · intro h
    obtain ⟨prev, next, hs⟩ := h
    have hlinks : s.links i = some (prev, next) := links_eq_some_iff.mpr hs
    exact ⟨lt_size_of_links hlinks, node_eq_none_of_links hlinks⟩
  · intro h
    exact exists_links_of_node_eq_none h.1 h.2

/-! ## Where the free list leads -/

theorem freeSucc_eq_some_iff : s.freeSucc i = some j ↔
    ∃ prev next, s[i]? = some (.free prev next) ∧ next.decodeSuccessor = .ok j := by
  simp only [freeSucc, Option.bind_eq_some_iff, Prod.exists, Link.successor?_eq_some_iff,
    links_eq_some_iff]

theorem freePred_eq_some_iff : s.freePred i = some j ↔
    ∃ prev next, s[i]? = some (.free prev next) ∧ prev.decodeIndex = .ok j := by
  simp only [freePred, Option.bind_eq_some_iff, Prod.exists, Link.index?_eq_some_iff,
    links_eq_some_iff]

theorem succ_eq_some_iff : s.node.succ i = some j ↔
    ∃ next k v, s[i]? = some (.used next k v) ∧ next.decodeIndex = .ok j := by
  simp only [Nodes.succ, Option.bind_eq_some_iff, Prod.exists, Link.index?_eq_some_iff,
    node_eq_some_iff]

theorem succ_of_used {next : Link w} {k : K} {v : V} (hs : s[i]? = some (.used next k v)) :
    s.node.succ i = next.index? := by
  rw [Nodes.succ, node_eq_some_iff.mpr hs]
  rfl

theorem freeSucc_of_free {prev next : Link w} (hs : s[i]? = some (.free prev next)) :
    s.freeSucc i = next.successor? := by
  rw [freeSucc, links_eq_some_iff.mpr hs]
  rfl

theorem freePred_of_free {prev next : Link w} (hs : s[i]? = some (.free prev next)) :
    s.freePred i = prev.index? := by
  rw [freePred, links_eq_some_iff.mpr hs]
  rfl

/-! ## Overwriting a slot -/

theorem node_setIfInBounds (hi : i < s.size) (slot : Slot w K V) :
    node (s.setIfInBounds i slot) = Function.update s.node i slot.node? := by
  funext j
  rw [node, Array.getElem?_setIfInBounds]
  by_cases hij : i = j
  · subst hij
    rw [Function.update_self, if_pos rfl, if_pos hi]
    rfl
  · rw [Function.update_of_ne (Ne.symm hij), if_neg hij]
    rfl

theorem links_setIfInBounds (hi : i < s.size) (slot : Slot w K V) :
    links (s.setIfInBounds i slot) = Function.update s.links i slot.links? := by
  funext j
  rw [links, Array.getElem?_setIfInBounds]
  by_cases hij : i = j
  · subst hij
    rw [Function.update_self, if_pos rfl, if_pos hi]
    rfl
  · rw [Function.update_of_ne (Ne.symm hij), if_neg hij]
    rfl

theorem freeSucc_setIfInBounds (hi : i < s.size) (slot : Slot w K V) :
    freeSucc (s.setIfInBounds i slot) =
      Function.update s.freeSucc i (slot.links?.bind fun x => x.2.successor?) := by
  funext j
  rw [freeSucc, links_setIfInBounds hi]
  rcases eq_or_ne j i with rfl | hji
  · rw [Function.update_self, Function.update_self]
  · rw [Function.update_of_ne hji, Function.update_of_ne hji]
    rfl

theorem freePred_setIfInBounds (hi : i < s.size) (slot : Slot w K V) :
    freePred (s.setIfInBounds i slot) =
      Function.update s.freePred i (slot.links?.bind fun x => x.1.index?) := by
  funext j
  rw [freePred, links_setIfInBounds hi]
  rcases eq_or_ne j i with rfl | hji
  · rw [Function.update_self, Function.update_self]
  · rw [Function.update_of_ne hji, Function.update_of_ne hji]
    rfl

/-! ## Operations on one slot -/

theorem read_eq {slot : Slot w K V} (h : s[i]? = some slot) : s.read i = .ok slot := by
  rw [read, h]

theorem write_eq (hi : i < s.size) (slot : Slot w K V) :
    s.write i slot = .ok (s.setIfInBounds i slot) := by
  rw [write, dif_pos hi, Array.setIfInBounds_def, dif_pos hi]

theorem update_eq_bind {f : Slot w K V → Except Fault (Slot w K V)} {slot : Slot w K V}
    (h : s[i]? = some slot) :
    s.update i f = f slot >>= fun slot => .ok (s.setIfInBounds i slot) := by
  obtain ⟨hi, rfl⟩ := Array.getElem?_eq_some_iff.mp h
  rw [SlotArray.update, dif_pos hi]
  simp only [Array.setIfInBounds_def, dif_pos hi]
  cases f s[i] <;> rfl

theorem update_eq {f : Slot w K V → Except Fault (Slot w K V)} {slot slot' : Slot w K V}
    (h : s[i]? = some slot) (hf : f slot = .ok slot') :
    s.update i f = .ok (s.setIfInBounds i slot') := by
  rw [update_eq_bind h, hf, ok_bind]

/-- A new predecessor link changes where one free slot leads back to, and nothing else. -/
theorem setPrev_spec {prev next : Link w} (h : s[i]? = some (.free prev next)) (l : Link w) :
    ∃ s', s.setPrev i l = .ok s' ∧ s'.size = s.size ∧ s'.node = s.node ∧
      s'.freeSucc = s.freeSucc ∧ s'.freePred = Function.update s.freePred i l.index? := by
  have hi : i < s.size := (Array.getElem?_eq_some_iff.mp h).1
  have hlinks : s.links i = some (prev, next) := links_eq_some_iff.mpr h
  refine ⟨_, update_eq h rfl, Array.size_setIfInBounds, ?_, ?_, ?_⟩
  · rw [node_setIfInBounds hi]
    exact Function.update_eq_self_iff.mpr (node_eq_none_of_links hlinks).symm
  · rw [freeSucc_setIfInBounds hi]
    exact Function.update_eq_self_iff.mpr (by rw [freeSucc, hlinks]; rfl)
  · rw [freePred_setIfInBounds hi]
    rfl

/-- A new successor link changes where one free slot leads to, and nothing else. -/
theorem setFreeNext_spec {prev next : Link w} (h : s[i]? = some (.free prev next)) (l : Link w) :
    ∃ s', s.setFreeNext i l = .ok s' ∧ s'.size = s.size ∧ s'.node = s.node ∧
      s'.freeSucc = Function.update s.freeSucc i l.successor? ∧ s'.freePred = s.freePred := by
  have hi : i < s.size := (Array.getElem?_eq_some_iff.mp h).1
  have hlinks : s.links i = some (prev, next) := links_eq_some_iff.mpr h
  refine ⟨_, update_eq h rfl, Array.size_setIfInBounds, ?_, ?_, ?_⟩
  · rw [node_setIfInBounds hi]
    exact Function.update_eq_self_iff.mpr (node_eq_none_of_links hlinks).symm
  · rw [freeSucc_setIfInBounds hi]
    rfl
  · rw [freePred_setIfInBounds hi]
    exact Function.update_eq_self_iff.mpr (by rw [freePred, hlinks]; rfl)

end SlotArray

end HomeChain
