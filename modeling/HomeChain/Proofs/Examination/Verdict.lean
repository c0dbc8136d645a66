import HomeChain.Proofs.Examination.Claims

/-!
# The verdict of an examination

The four stages of an examination decide together whether a table is in order. So an examination
of any table, however damaged, ends with a verdict, and the verdict is right (`check_verdict`).
It is never about iteration: on a table that counts its entries right, iteration gives as many.
-/

namespace HomeChain

variable {w : LinkWidth} {K V : Type}

namespace Table

variable {t : Table w K V} {L : Layout} {i : Nat}

theorem mem_indices_iff : i ∈ t.indices ↔ 0 < i ∧ i ≤ t.capacity := by
  rw [indices, List.mem_range'_1, Nat.add_comm 1, Nat.lt_succ_iff]
  exact Iff.rfl

/-- The slot of a key is among the slots for entries. -/
theorem Shapely.mem_indices (ht : t.Shapely) {k : K} (hi : t.slots.node.key i = some k) :
    i ∈ t.indices := by
  obtain ⟨next, v, hs⟩ := SlotArray.key_eq_some_iff.mp hi
  have hlt := (Array.getElem?_eq_some_iff.mp hs).1
  have hsize := ht.size_eq
  obtain ⟨prev, next', hfree⟩ := ht.anchor_free
  have hi0 : i ≠ 0 := by
    rintro rfl
    rw [hfree] at hs
    cases hs
  exact mem_indices_iff.mpr ⟨Nat.pos_of_ne_zero hi0, by omega⟩

theorem home_mem_indices (t : Table w K V) (k : K) : t.home k ∈ t.indices :=
  mem_indices_iff.mpr ⟨t.home_pos k, t.home_le k⟩

/-- Every used slot is on one of the chains, and no two slots hold the same key. -/
structure Covered (t : Table w K V) (chains : List (List Nat)) : Prop where
  mem : ∀ i k, t.slots.node.key i = some k → i ∈ chains.flatten
  distinct : t.indices.Pairwise fun i j => ∀ k, t.slots.node.key i = some k →
    t.slots.node.key j ≠ some k

/-! ## Tables in order pass -/

theorem LaidOut.headChain (hL : t.LaidOut L) (h : Nat) : t.HeadChain h (L.chain h) := by
  by_cases hk : ∃ k, t.slots.node.key h = some k ∧ t.home k = h
  · exact .chain (hL.isHomeChain ((hL.chains.mem_iff h h).mpr hk))
  · have hno : ∀ k, t.slots.node.key h = some k → t.home k ≠ h := fun k hk' hkh =>
      hk ⟨k, hk', hkh⟩
    rw [hL.chains.eq_nil hno]
    exact .none hno

/-- The chains of a layout are what the third stage asks for. -/
theorem LaidOut.claimedChains (hL : t.LaidOut L) (n : Nat) :
    t.ClaimedChains t.indices (t.indices.map L.chain) (Array.replicate n false) where
  headChain := by
    rw [List.forall₂_map_right_iff, List.forall₂_same]
    exact fun h _ => hL.headChain h
  nodup := by
    rw [List.nodup_flatten, List.forall_mem_map, List.pairwise_map]
    refine ⟨fun h _ => hL.chains.nodup h, List.Pairwise.imp ?_ List.nodup_range'⟩
    intro g h hgh i hg hh
    exact hgh (hL.chains.eq_of_mem hg hh)
  unclaimed i _ := getD_replicate_false n i

/-- Whatever chains the heads have been found to have, they are those of the layout, and so
every used slot is on one of them. -/
theorem LaidOut.mem_flatten_of_key (hL : t.LaidOut L) {heads : List Nat}
    {chains : List (List Nat)} (hheads : List.Forall₂ t.HeadChain heads chains) {k : K}
    (hi : t.slots.node.key i = some k) (hk : t.home k ∈ heads) : i ∈ chains.flatten := by
  have hmem := hL.chains.mem_of_key hi
  have hchain := hL.isHomeChain hmem
  obtain ⟨k', hk', hkh⟩ := hchain.exists_key
  induction hheads with
  | nil => simp at hk
  | @cons h c heads chains hc _ ih =>
    rw [List.flatten_cons, List.mem_append]
    rcases List.mem_cons.mp hk with rfl | hk
    · rw [(hc.isHomeChain hk' hkh).unique hchain hL.anchor_free]
      exact .inl hmem
    · exact .inr (ih hk)

/-- Whatever chains the heads have been found to have, they cover a table in order. -/
theorem LaidOut.covered (hL : t.LaidOut L) {chains : List (List Nat)}
    (hheads : List.Forall₂ t.HeadChain t.indices chains) : t.Covered chains where
  mem i k hi := hL.mem_flatten_of_key hheads hi (t.home_mem_indices k)
  distinct := by
    refine List.Pairwise.imp ?_ List.nodup_range'
    intro i j hij k hi hj
    exact hij (hL.eq_of_key hj i hi)

/-! ## Tables that pass are in order -/

/-- The slots found on the chains of some heads are on home chains. -/
theorem exists_isHomeChain {heads : List Nat} {chains : List (List Nat)}
    (hheads : List.Forall₂ t.HeadChain heads chains) (hi : i ∈ chains.flatten) :
    ∃ c, i ∈ c ∧ ∃ h, t.IsHomeChain h c := by
  induction hheads with
  | nil => simp at hi
  | cons hc _ ih =>
    rw [List.flatten_cons, List.mem_append] at hi
    rcases hi with hi | hi
    · cases hc with
      | chain hc => exact ⟨_, hi, _, hc⟩
      | none _ => simp at hi
    · exact ih hi

/-- Where the heads have chains and every used slot is on one of them, every used slot is on
exactly one home chain. -/
theorem Shapely.home_chain (ht : t.Shapely) {chains : List (List Nat)}
    (hheads : List.Forall₂ t.HeadChain t.indices chains)
    (hmem : ∀ i k, t.slots.node.key i = some k → i ∈ chains.flatten) {next : Link w} {k : K}
    {v : V} (hs : t.slots[i]? = some (.used next k v)) :
    ∃! c, i ∈ c ∧ ∃ h, t.IsHomeChain h c := by
  obtain ⟨c, hic, h, hchain⟩ := exists_isHomeChain hheads
    (hmem i k (SlotArray.key_eq_some_iff.mpr ⟨next, v, hs⟩))
  refine ⟨c, ⟨hic, h, hchain⟩, fun c' ⟨hic', h', hchain'⟩ => ?_⟩
  -- the key in slot `i` has one home address
  rw [← hchain.home_eq hic hs] at hchain
  rw [← hchain'.home_eq hic' hs] at hchain'
  exact hchain'.unique hchain ht.anchor_free

/-- A shapely table whose slots fall into a circle and chains, with different keys, is in
order. -/
theorem Shapely.inOrder (ht : t.Shapely) {order : List Nat} (horder : t.FreeOrder order)
    {chains : List (List Nat)} (hheads : List.Forall₂ t.HeadChain t.indices chains)
    (hcovered : t.Covered chains) : t.InOrder where
  capacity_pow := ht.capacity_pow
  size_eq := ht.size_eq
  anchor_free := ht.anchor_free
  free_links i prev next hs := ht.links i _ hs
  used_links i next k v hs := ht.links i _ hs
  len_eq := ht.len_eq
  free_circle := by
    refine ⟨order, horder.1, fun i => ?_⟩
    rw [horder.2, SlotArray.free_iff]
  home_chain i next k v hs := ht.home_chain hheads hcovered.mem hs
  key_unique i j next next' k v v' hi hj := by
    have hki : t.slots.node.key i = some k := SlotArray.key_eq_some_iff.mpr ⟨next, v, hi⟩
    have hkj : t.slots.node.key j = some k := SlotArray.key_eq_some_iff.mpr ⟨next', v', hj⟩
    have hsymm : Std.Symm fun i j => ∀ k, t.slots.node.key i = some k →
        t.slots.node.key j ≠ some k := ⟨fun a b hab k hb ha => hab k ha hb⟩
    by_contra hij
    exact hcovered.distinct.forall (ht.mem_indices hki) (ht.mem_indices hkj) hij k hki hkj

/-- Where the slots of the chains, and no others, have been claimed, the marks say so. -/
theorem Shapely.getD_mark_flatten (ht : t.Shapely) {heads : List Nat} {chains : List (List Nat)}
    (hheads : List.Forall₂ t.HeadChain heads chains) (i : Nat) :
    (mark (Array.replicate (t.capacity + 1) false) chains.flatten).getD i false = true ↔
      i ∈ chains.flatten := by
  have hlt : ∀ i ∈ chains.flatten, i < (Array.replicate (t.capacity + 1) false).size := by
    intro i hi
    obtain ⟨c, hic, h, hc⟩ := exists_isHomeChain hheads hi
    rw [Array.size_replicate, ← ht.size_eq]
    exact (isHomeChain_iff.mp hc).2.lt_size hic
  rw [getD_mark hlt, getD_replicate_false, Bool.or_false, decide_eq_true_iff]

/-- Then the fourth stage asks whether the chains cover the table. -/
theorem Shapely.newKeys_iff (ht : t.Shapely) {chains : List (List Nat)}
    (hheads : List.Forall₂ t.HeadChain t.indices chains) :
    t.NewKeys (mark (Array.replicate (t.capacity + 1) false) chains.flatten) t.indices
      (Array.replicate (t.capacity + 1) []) ↔ t.Covered chains := by
  have hmark := ht.getD_mark_flatten hheads
  constructor
  · intro h
    exact ⟨fun i k hi => (hmark i).mp (h.claimed i (ht.mem_indices hi) k hi), h.distinct⟩
  · intro h
    refine ⟨fun i _ k hi => (hmark i).mpr (h.mem i k hi), h.distinct, fun i _ k _ => ?_⟩
    -- no key has been seen yet
    rw [Array.getD_eq_getD_getElem?, Array.getElem?_replicate]
    split <;> exact List.not_mem_nil

/-! ## The verdict -/

/-- What an examination comes to. -/
inductive Verdict (t : Table w K V) : Except Inconsistency Unit → Prop where
  | inOrder (inOrder : t.InOrder) : Verdict t (.ok ())
  | defect {d : Inconsistency} (finding : d.IsFinding) (not_inOrder : ¬ t.InOrder) :
      Verdict t (.error d)

/-- A stage that a table in order gets through is passed, or ends the examination with a verdict. -/
theorem passed_or_verdict {α : Type} {P : α → Prop} {x : Except Halt α} (h : Decides P x)
    (hP : ∀ L, t.LaidOut L → ∃ a, P a) :
    (∃ a, x = .ok a ∧ P a) ∨
      ∃ halt v, x = .error halt ∧ (reportHalt halt).outcome = .ok v ∧ t.Verdict v := by
  cases h with
  | @passed a holds => exact .inl ⟨a, rfl, holds⟩
  | @found d finding fails =>
    refine .inr ⟨.defect d, .error d, rfl, rfl, .defect finding fun ht => ?_⟩
    obtain ⟨L, hL⟩ := inOrder_iff.mp ht
    obtain ⟨a, ha⟩ := hP L hL
    exact fails a ha

variable [DecidableEq K]

/-- An examination of any table ends with a verdict, and the verdict is right. -/
theorem check_verdict (t : Table w K V) : ∃ v, t.check.outcome = .ok v ∧ t.Verdict v := by
  unfold check
  rcases passed_or_verdict t.checkShape_decides
    (fun L hL => ⟨t.len, rfl, hL.inOrder.shapely⟩) with
    ⟨used, h, hused, ht⟩ | ⟨halt, v, h, hverdict⟩
  swap
  · rw [h]
    exact ⟨v, hverdict⟩
  subst hused
  simp only [h, Traced.outcome_bind, Traced.outcome_emit, ok_bind]
  -- from here on the table is shapely, so the stages may rely on its links
  rcases passed_or_verdict ht.freeLists_decide
    (fun L hL => ⟨(), L.free, hL.circle, hL.mem_free⟩) with
    ⟨_, h, order, horder⟩ | ⟨halt, v, h, hverdict⟩
  swap
  · rw [h]
    exact ⟨v, hverdict⟩
  simp only [h]
  have hindices : ∀ i ∈ t.indices, i ≤ t.capacity := fun i hi => (mem_indices_iff.mp hi).2
  have hsize : (Array.replicate (t.capacity + 1) false).size = t.slots.size := by
    rw [Array.size_replicate, ht.size_eq]
  rcases passed_or_verdict (ht.claimChains_decides (n := 0) hindices hsize)
    (fun L hL => ⟨(0, _), _, hL.claimedChains _, rfl⟩) with
    ⟨⟨n, claimed⟩, h, chains, hclaimed, hmark⟩ | ⟨halt, v, h, hverdict⟩
  swap
  · rw [h]
    exact ⟨v, hverdict⟩
  simp only [h, Traced.outcome_bind, Traced.outcome_emit, ok_bind]
  -- the slots claimed are those of the chains, so the last stage is about these
  have hheads := hclaimed.headChain
  have hkeys : Decides (fun _ : Unit => t.Covered chains) (t.checkKeys claimed t.indices
      (Array.replicate (t.capacity + 1) [])) := by
    refine (ht.checkKeys_decides hindices Array.size_replicate).congr fun _ => ?_
    dsimp only at hmark
    rw [hmark]
    exact ht.newKeys_iff hheads
  rcases passed_or_verdict hkeys (fun L hL => ⟨(), hL.covered hheads⟩) with
    ⟨_, h, hcovered⟩ | ⟨halt, v, h, hverdict⟩
  swap
  · rw [h]
    exact ⟨v, hverdict⟩
  rw [h]
  exact ⟨_, rfl, .inOrder (ht.inOrder horder hheads hcovered)⟩

/-- The tables in order are those that pass an examination. -/
theorem check_eq_ok_iff {t : Table w K V} : t.check.outcome = .ok (.ok ()) ↔ t.InOrder := by
  obtain ⟨v, hv, hverdict⟩ := t.check_verdict
  rw [hv]
  cases hverdict with
  | inOrder ht => exact ⟨fun _ => ht, fun _ => rfl⟩
  | defect _ hno => exact ⟨fun h => (by cases h), fun ht => absurd ht hno⟩

/-- The other ones are found out. -/
theorem exists_check_eq_error {t : Table w K V} (h : ¬ t.InOrder) :
    ∃ d, t.check.outcome = .ok (.error d) := by
  obtain ⟨v, hv, hverdict⟩ := t.check_verdict
  cases hverdict with
  | inOrder ht => exact absurd ht h
  | @defect d _ _ => exact ⟨d, hv⟩

/-- An examination of any table ends with a verdict, which is that the table is in order just if
it is, and never that iteration goes wrong. -/
theorem check_exact (t : Table w K V) :
    ∃ v, t.check.outcome = .ok v ∧ (v = .ok () ↔ t.InOrder) ∧
      ∀ visited len, v ≠ .error (.iterationMismatch visited len) := by
  obtain ⟨v, hv, hverdict⟩ := t.check_verdict
  refine ⟨v, hv, ?_⟩
  cases hverdict with
  | inOrder ht =>
    refine ⟨⟨fun _ => ht, fun _ => rfl⟩, fun visited len h => ?_⟩
    cases h
  | defect finding hno =>
    refine ⟨⟨fun h => ?_, fun ht => absurd ht hno⟩, fun visited len h => ?_⟩
    · cases h
    · cases h
      exact finding

end Table

end HomeChain
