import HomeChain.Proofs.Examination.FreeWalk

/-!
# Claiming the chains

The third stage of an examination follows every chain from its head and claims the slots it
meets; the fourth asks that every used slot has been claimed, and that no key is met twice.

Following a chain cannot go on for ever: each step claims a slot that was not claimed before,
and the steps allowed are more than there are slots to claim. So the stage decides whether each
head is the head of a home chain, and whether the chains keep apart.
-/

namespace HomeChain

variable {w : LinkWidth} {K V : Type}

/-! ## Marks -/

/-- The marks, with those of the places in a list added. -/
def mark (claimed : Array Bool) (l : List Nat) : Array Bool :=
  l.foldl (fun claimed i => claimed.setIfInBounds i true) claimed

@[simp] theorem mark_nil (claimed : Array Bool) : mark claimed [] = claimed := rfl

theorem mark_cons (claimed : Array Bool) (i : Nat) (l : List Nat) :
    mark claimed (i :: l) = mark (claimed.setIfInBounds i true) l := rfl

theorem mark_append (claimed : Array Bool) (l m : List Nat) :
    mark claimed (l ++ m) = mark (mark claimed l) m := List.foldl_append

@[simp] theorem size_mark (claimed : Array Bool) (l : List Nat) :
    (mark claimed l).size = claimed.size := by
  induction l generalizing claimed with
  | nil => rfl
  | cons i l ih => rw [mark_cons, ih, Array.size_setIfInBounds]

theorem getD_mark {claimed : Array Bool} {l : List Nat} (hl : ∀ i ∈ l, i < claimed.size)
    (j : Nat) : (mark claimed l).getD j false = (decide (j ∈ l) || claimed.getD j false) := by
  induction l generalizing claimed with
  | nil => simp
  | cons i l ih =>
    have hi := hl i List.mem_cons_self
    rw [mark_cons, ih fun k hk => by
      rw [Array.size_setIfInBounds]
      exact hl k (List.mem_cons_of_mem i hk), getD_setIfInBounds_true hi]
    simp only [List.mem_cons, Bool.decide_or]
    cases decide (j = i) <;> cases decide (j ∈ l) <;> rfl

/-- A new mark leaves one place less without a mark. -/
theorem count_setIfInBounds {claimed : Array Bool} {i : Nat} (hi : i < claimed.size)
    (hfalse : claimed.getD i false = false) :
    (claimed.setIfInBounds i true).count false + 1 = claimed.count false := by
  have hget : claimed[i] = false := by
    rwa [Array.getD_eq_getD_getElem?, Array.getElem?_eq_getElem hi, Option.getD_some] at hfalse
  have hpos : 0 < claimed.count false := Array.count_pos_iff.mpr (hget ▸ Array.getElem_mem hi)
  rw [Array.setIfInBounds_def, dif_pos hi, Array.count_set hi, hget]
  simp
  omega

namespace Table

variable {t : Table w K V} {h i j : Nat} {l rest : List Nat} {claimed : Array Bool}

/-! ## Following a chain -/

/-- The links lead over the slots of `l` to the end of a chain, and the keys there have home
address `h`. -/
structure Segment (t : Table w K V) (h : Nat) (l : List Nat) : Prop where
  route : Route t.slots.node.succ (l ++ [0])
  home : ∀ i ∈ l, ∃ next k v, t.slots[i]? = some (.used next k v) ∧ t.home k = h

theorem isHomeChain_iff : t.IsHomeChain h l ↔ l.head? = some h ∧ t.Segment h l :=
  ⟨fun hc => ⟨hc.head, hc.route, hc.home⟩, fun hc => ⟨hc.1, hc.2.route, hc.2.home⟩⟩

/-- None of the slots has been claimed. -/
def Unclaimed (claimed : Array Bool) (l : List Nat) : Prop :=
  ∀ i ∈ l, claimed.getD i false = false

theorem unclaimed_cons_iff : Unclaimed claimed (i :: l) ↔
    claimed.getD i false = false ∧ Unclaimed claimed l := List.forall_mem_cons

theorem unclaimed_append_iff {m : List Nat} : Unclaimed claimed (l ++ m) ↔
    Unclaimed claimed l ∧ Unclaimed claimed m := List.forall_mem_append

/-- The slots of `m` are unclaimed also when those of `l` have been claimed. -/
theorem unclaimed_mark_iff {m : List Nat} (hl : ∀ i ∈ l, i < claimed.size) :
    Unclaimed (mark claimed l) m ↔ Unclaimed claimed m ∧ ∀ i ∈ m, i ∉ l := by
  simp only [Unclaimed, getD_mark hl, Bool.or_eq_false_iff, decide_eq_false_iff_not]
  constructor
  · intro h
    exact ⟨fun i hi => (h i hi).2, fun i hi => (h i hi).1⟩
  · rintro ⟨h, h'⟩ i hi
    exact ⟨h' i hi, h i hi⟩

theorem Segment.lt_size (hl : t.Segment h l) (hi : i ∈ l) : i < t.slots.size := by
  obtain ⟨next, k, v, hs, -⟩ := hl.home i hi
  exact (Array.getElem?_eq_some_iff.mp hs).1

theorem Segment.zero_notMem (hl : t.Segment h l) (ht : t.Shapely) : 0 ∉ l := fun h0 => by
  obtain ⟨next, k, v, hs, -⟩ := hl.home 0 h0
  obtain ⟨prev, next', hfree⟩ := ht.anchor_free
  rw [hfree] at hs
  cases hs

/-- The keys on a segment have its home address. -/
theorem Segment.home_eq (hl : t.Segment h l) (hi : i ∈ l) {next : Link w} {k : K} {v : V}
    (hs : t.slots[i]? = some (.used next k v)) : t.home k = h := by
  obtain ⟨next', k', v', hs', hk'⟩ := hl.home i hi
  rw [hs, Option.some.injEq, Slot.used.injEq] at hs'
  rw [hs'.2.1, hk']

/-- The link of a used slot names a slot of the table. -/
theorem Shapely.exists_decodeIndex (ht : t.Shapely) {next : Link w} {k : K} {v : V}
    (hs : t.slots[i]? = some (.used next k v)) :
    ∃ j, next.decodeIndex = .ok j ∧ j ≤ t.capacity ∧ t.slots.node.succ i = some j := by
  obtain ⟨h0, hc⟩ := ht.links i _ hs
  have hj := Link.toIndex_of_nonneg h0
  have hdecode : next.decodeIndex = .ok next.toIndex := Link.decodeIndex_eq_ok_iff.mpr hj.symm
  exact ⟨next.toIndex, hdecode, by omega,
    SlotArray.succ_eq_some_iff.mpr ⟨next, k, v, hs, hdecode⟩⟩

/-- A segment that does not end with its first slot goes on where that one leads. -/
theorem segment_cons_iff (ht : t.Shapely) {next : Link w} {k : K} {v : V}
    (hs : t.slots[i]? = some (.used next k v)) (hk : t.home k = h)
    (hij : t.slots.node.succ i = some j) (hj : j ≠ 0) (hi : i < claimed.size)
    (hclaimed : claimed.getD i false = false) :
    t.Segment h (i :: l) ∧ Unclaimed claimed (i :: l) ↔ ∃ rest, l = j :: rest ∧
      t.Segment h (j :: rest) ∧ Unclaimed (claimed.setIfInBounds i true) (j :: rest) := by
  have hmark : ∀ m, Unclaimed (claimed.setIfInBounds i true) m ↔
      Unclaimed claimed m ∧ ∀ k ∈ m, k ∉ [i] := fun m =>
    unclaimed_mark_iff (l := [i]) fun k hk => List.mem_singleton.mp hk ▸ hi
  constructor
  · rintro ⟨hl, hu⟩
    have hnodup := hl.route.nodup (hl.zero_notMem ht)
    -- the segment goes on, since its first slot does not lead to the anchor
    cases l with
    | nil =>
      have hi0 : t.slots.node.succ i = some 0 := hl.route.head_leads rfl
      rw [hij, Option.some.injEq] at hi0
      exact absurd hi0 hj
    | cons j' rest =>
      have hij' : t.slots.node.succ i = some j' := hl.route.head_leads rfl
      rw [hij, Option.some.injEq] at hij'
      subst hij'
      refine ⟨rest, rfl, ⟨Route.tail (i := i) hl.route, fun k hk =>
        hl.home k (List.mem_cons_of_mem i hk)⟩, (hmark _).mpr ⟨(unclaimed_cons_iff.mp hu).2, ?_⟩⟩
      intro k hk hki
      exact (List.nodup_cons.mp hnodup).1 (List.mem_singleton.mp hki ▸ hk)
  · rintro ⟨rest, rfl, hl, hu⟩
    refine ⟨⟨Route.cons_cons.mpr ⟨hij, hl.route⟩, List.forall_mem_cons.mpr
      ⟨⟨next, k, v, hs, hk⟩, hl.home⟩⟩, unclaimed_cons_iff.mpr ⟨hclaimed, ((hmark _).mp hu).1⟩⟩

/-- From slot `i` on, the chain of `h` goes over unclaimed slots to its end, and in `claimed'` they
have been claimed. -/
def ClaimsFrom (t : Table w K V) (h i : Nat) (claimed claimed' : Array Bool) : Prop :=
  ∃ rest, (t.Segment h (i :: rest) ∧ Unclaimed claimed (i :: rest)) ∧
    claimed' = mark claimed (i :: rest)

/-- A chain that ends in slot `i` has that slot to claim. -/
theorem claimsFrom_last {k : K} {v : V} (hs : t.slots[i]? = some (.used .null k v))
    (hk : t.home k = h) (hclaimed : claimed.getD i false = false) :
    t.ClaimsFrom h i claimed (claimed.setIfInBounds i true) := by
  have hend : t.slots.node.succ i = some 0 := by
    rw [SlotArray.succ_of_used hs, Link.index?_null]
  refine ⟨[], ⟨⟨?_, ?_⟩, unclaimed_cons_iff.mpr ⟨hclaimed, by simp [Unclaimed]⟩⟩, rfl⟩
  · exact Route.cons_cons.mpr ⟨hend, Route.singleton 0⟩
  · exact List.forall_mem_cons.mpr ⟨⟨.null, k, v, hs, hk⟩, by simp⟩

/-- A chain that goes on with slot `j` has slot `i` to claim, and the slots from `j` on. -/
theorem claimsFrom_step_iff (ht : t.Shapely) {next : Link w} {k : K} {v : V}
    {claimed' : Array Bool} (hs : t.slots[i]? = some (.used next k v)) (hk : t.home k = h)
    (hij : t.slots.node.succ i = some j) (hj : j ≠ 0) (hi : i < claimed.size)
    (hclaimed : claimed.getD i false = false) :
    t.ClaimsFrom h j (claimed.setIfInBounds i true) claimed' ↔
      t.ClaimsFrom h i claimed claimed' := by
  constructor
  · rintro ⟨rest, hc, hr⟩
    exact ⟨j :: rest, (segment_cons_iff ht hs hk hij hj hi hclaimed).mpr ⟨rest, rfl, hc⟩, hr⟩
  · rintro ⟨l, hc, hr⟩
    obtain ⟨rest, hl, hc'⟩ := (segment_cons_iff ht hs hk hij hj hi hclaimed).mp hc
    exact ⟨rest, hc', hl ▸ hr⟩

/-- Following a chain decides whether it is one, and has not been claimed. -/
theorem Shapely.claimChain_decides (ht : t.Shapely) (h : Nat) {steps i : Nat}
    {claimed : Array Bool} (hi : i ≤ t.capacity) (hsize : claimed.size = t.slots.size)
    (hsteps : claimed.count false < steps) :
    Decides (t.ClaimsFrom h i claimed) (t.claimChain h steps i claimed) := by
  -- every step claims a slot, and there are more steps than unclaimed slots
  induction steps generalizing i claimed with
  | zero => omega
  | succ steps ih =>
    have hlt : i < t.slots.size := by
      have := ht.size_eq
      omega
    have hget : t.slots[i]? = some t.slots[i] := Array.getElem?_eq_getElem hlt
    rw [claimChain]
    cases hslot : t.slots[i] with
    | free prev next =>
      rw [hslot] at hget
      simp only [hget]
      refine .found trivial fun _ h => ?_
      obtain ⟨rest, hc, -⟩ := h
      obtain ⟨_, _, _, hs, -⟩ := hc.1.home i List.mem_cons_self
      rw [hget] at hs
      cases hs
    | used next k v =>
      rw [hslot] at hget
      simp only [hget]
      by_cases hclaimed : claimed.getD i false = true
      · rw [if_pos hclaimed]
        refine .found trivial fun _ h => ?_
        obtain ⟨rest, hc, -⟩ := h
        rw [(unclaimed_cons_iff.mp hc.2).1] at hclaimed
        cases hclaimed
      rw [if_neg hclaimed]
      rw [Bool.not_eq_true] at hclaimed
      by_cases hk : t.home k = h
      · rw [if_neg (not_not.mpr hk)]
        by_cases hnull : next = .null
        · rw [if_pos hnull]
          subst hnull
          exact .passed (claimsFrom_last hget hk hclaimed)
        · obtain ⟨j, hdecode, hj, hij⟩ := ht.exists_decodeIndex hget
          rw [if_neg hnull, hdecode]
          have hj0 : j ≠ 0 := by
            intro hj0
            exact hnull (Link.eq_null_of_decodeIndex (hj0 ▸ hdecode))
          have hisize : i < claimed.size := by omega
          have hcount := count_setIfInBounds hisize hclaimed
          refine (ih hj (Array.size_setIfInBounds.trans hsize) (by omega)).congr fun claimed' => ?_
          exact claimsFrom_step_iff ht hget hk hij hj0 hisize hclaimed
      · rw [if_pos hk]
        refine .found trivial fun _ h => ?_
        obtain ⟨rest, hc, -⟩ := h
        exact hk (hc.1.home_eq List.mem_cons_self hget)

/-! ## Following all chains -/

/-- What is to be found at a slot: the home chain of which it is the head, or nothing, if no key
with that home address is in it. -/
inductive HeadChain (t : Table w K V) (h : Nat) : List Nat → Prop where
  | chain {c} (isHomeChain : t.IsHomeChain h c) : HeadChain t h c
  | none (not_home : ∀ k, t.slots.node.key h = some k → t.home k ≠ h) : HeadChain t h []

theorem IsHomeChain.exists_key {c : List Nat} (hc : t.IsHomeChain h c) :
    ∃ k, t.slots.node.key h = some k ∧ t.home k = h := by
  obtain ⟨next, k, v, hs, hk⟩ := hc.home h (List.mem_of_mem_head? hc.head)
  exact ⟨k, SlotArray.key_eq_some_iff.mpr ⟨next, v, hs⟩, hk⟩

theorem HeadChain.eq_nil {c : List Nat} (hc : t.HeadChain h c)
    (hno : ∀ k, t.slots.node.key h = some k → t.home k ≠ h) : c = [] := by
  cases hc with
  | chain hc =>
    obtain ⟨k, hk, hkh⟩ := hc.exists_key
    exact absurd hkh (hno k hk)
  | none _ => rfl

theorem HeadChain.isHomeChain {c : List Nat} {k : K} (hc : t.HeadChain h c)
    (hk : t.slots.node.key h = some k) (hkh : t.home k = h) : t.IsHomeChain h c := by
  cases hc with
  | chain hc => exact hc
  | none hno => exact absurd hkh (hno k hk)

/-- The chains of some heads, none of whose slots has been claimed or is claimed twice. -/
structure ClaimedChains (t : Table w K V) (heads : List Nat) (chains : List (List Nat))
    (claimed : Array Bool) : Prop where
  headChain : List.Forall₂ t.HeadChain heads chains
  nodup : chains.flatten.Nodup
  unclaimed : Unclaimed claimed chains.flatten

/-- A head whose chain is empty adds nothing. -/
theorem claimedChains_cons_nil_iff {heads : List Nat} {chains : List (List Nat)}
    (hno : ∀ k, t.slots.node.key h = some k → t.home k ≠ h) :
    t.ClaimedChains (h :: heads) chains claimed ↔
      ∃ rest, chains = [] :: rest ∧ t.ClaimedChains heads rest claimed := by
  constructor
  · rintro ⟨hheads, hnodup, hunclaimed⟩
    cases hheads with
    | cons hc hrest =>
      obtain rfl := hc.eq_nil hno
      exact ⟨_, rfl, hrest, hnodup, hunclaimed⟩
  · rintro ⟨rest, rfl, hrest, hnodup, hunclaimed⟩
    exact ⟨.cons (.none hno) hrest, hnodup, hunclaimed⟩

/-- The chain of a head is claimed, and then those of the heads behind. -/
theorem claimedChains_cons_iff (ht : t.Shapely) {heads : List Nat} {chains : List (List Nat)}
    {c : List Nat} (hc : t.IsHomeChain h c) (hu : Unclaimed claimed c)
    (hsize : claimed.size = t.slots.size) :
    t.ClaimedChains (h :: heads) chains claimed ↔
      ∃ rest, chains = c :: rest ∧ t.ClaimedChains heads rest (mark claimed c) := by
  have hsegment := (isHomeChain_iff.mp hc).2
  have hmark : ∀ m, Unclaimed (mark claimed c) m ↔ Unclaimed claimed m ∧ ∀ i ∈ m, i ∉ c :=
    fun m => unclaimed_mark_iff fun i hi => hsize ▸ hsegment.lt_size hi
  constructor
  · rintro ⟨hheads, hnodup, hunclaimed⟩
    cases hheads with
    | @cons _ c' _ rest hc' hrest =>
      -- the head has one chain only, which is `c`
      obtain ⟨k, hk, hkh⟩ := hc.exists_key
      obtain rfl := (hc'.isHomeChain hk hkh).unique hc ht.anchor_free
      rw [List.flatten_cons] at hnodup hunclaimed
      rw [List.nodup_append] at hnodup
      refine ⟨rest, rfl, hrest, hnodup.2.1, (hmark _).mpr ⟨?_, fun i hi hi' => ?_⟩⟩
      · exact (unclaimed_append_iff.mp hunclaimed).2
      · exact hnodup.2.2 i hi' i hi rfl
  · rintro ⟨rest, rfl, hrest, hnodup, hunclaimed⟩
    obtain ⟨hunclaimed', hdisjoint⟩ := (hmark _).mp hunclaimed
    refine ⟨.cons (.chain hc) hrest, ?_, ?_⟩
    · rw [List.flatten_cons, List.nodup_append]
      refine ⟨hsegment.route.nodup (hsegment.zero_notMem ht), hnodup, fun i hi j hj => ?_⟩
      rintro rfl
      exact hdisjoint i hj hi
    · rw [List.flatten_cons, unclaimed_append_iff]
      exact ⟨hu, hunclaimed'⟩

/-- The heads have chains that keep apart, over unclaimed slots, and in `claimed'` these slots have
been claimed. -/
def ClaimsAll (t : Table w K V) (heads : List Nat) (claimed claimed' : Array Bool) : Prop :=
  ∃ chains, t.ClaimedChains heads chains claimed ∧ claimed' = mark claimed chains.flatten

theorem claimsAll_skip_iff {heads : List Nat} {claimed' : Array Bool}
    (hno : ∀ k, t.slots.node.key h = some k → t.home k ≠ h) :
    t.ClaimsAll heads claimed claimed' ↔ t.ClaimsAll (h :: heads) claimed claimed' := by
  simp only [ClaimsAll, claimedChains_cons_nil_iff hno]
  constructor
  · rintro ⟨chains, hc, hr⟩
    exact ⟨[] :: chains, ⟨chains, rfl, hc⟩, hr⟩
  · rintro ⟨_, ⟨chains, rfl, hc⟩, hr⟩
    exact ⟨chains, hc, hr⟩

theorem claimsAll_cons_iff (ht : t.Shapely) {heads c : List Nat} {claimed' : Array Bool}
    (hc : t.IsHomeChain h c) (hu : Unclaimed claimed c) (hsize : claimed.size = t.slots.size) :
    t.ClaimsAll heads (mark claimed c) claimed' ↔ t.ClaimsAll (h :: heads) claimed claimed' := by
  simp only [ClaimsAll, claimedChains_cons_iff ht hc hu hsize]
  constructor
  · rintro ⟨chains, hcs, hr⟩
    refine ⟨c :: chains, ⟨chains, rfl, hcs⟩, ?_⟩
    rw [List.flatten_cons, mark_append, hr]
  · rintro ⟨_, ⟨chains, rfl, hcs⟩, hr⟩
    refine ⟨chains, hcs, ?_⟩
    rw [hr, List.flatten_cons, mark_append]

/-- Where there are chains to claim, there is one from the first head on, if it is a head. -/
theorem ClaimsAll.exists_claimsFrom {heads : List Nat} {claimed' : Array Bool} {k : K}
    (hall : t.ClaimsAll (h :: heads) claimed claimed') (hkey : t.slots.node.key h = some k)
    (hk : t.home k = h) : ∃ claimed'', t.ClaimsFrom h h claimed claimed'' := by
  obtain ⟨chains, ⟨hheads, -, hu⟩, -⟩ := hall
  cases hheads with
  | @cons _ c _ rest hc _ =>
    have hchain := hc.isHomeChain hkey hk
    obtain ⟨tail, htail⟩ := List.head?_eq_some_iff.mp hchain.head
    rw [List.flatten_cons, unclaimed_append_iff] at hu
    subst htail
    exact ⟨_, tail, ⟨(isHomeChain_iff.mp hchain).2, hu.1⟩, rfl⟩

theorem claimChains_head_eq {next : Link w} {k : K} {v : V}
    (hs : t.slots[h]? = some (.used next k v)) (hk : t.home k = h) (heads : List Nat) (n : Nat)
    (claimed : Array Bool) :
    t.claimChains (h :: heads) n claimed = (t.claimChain h (t.slots.size + 1) h claimed >>=
      fun claimed => t.claimChains heads (n + 1) claimed) := by
  rw [claimChains]
  simp only [hs, if_pos hk]
  cases t.claimChain h (t.slots.size + 1) h claimed <;> rfl

/-- Following the chains of some heads decides whether they are chains that keep apart. -/
theorem Shapely.claimChains_decides (ht : t.Shapely) {heads : List Nat} {n : Nat}
    {claimed : Array Bool} (hheads : ∀ h ∈ heads, h ≤ t.capacity)
    (hsize : claimed.size = t.slots.size) :
    Decides (fun r => t.ClaimsAll heads claimed r.2) (t.claimChains heads n claimed) := by
  induction heads generalizing n claimed with
  | nil => exact .passed ⟨[], ⟨.nil, List.nodup_nil, by simp [Unclaimed]⟩, rfl⟩
  | cons h heads ih =>
    have hle := hheads h List.mem_cons_self
    have hheads' : ∀ h' ∈ heads, h' ≤ t.capacity := fun h' hh' =>
      hheads h' (List.mem_cons_of_mem h hh')
    have hlt : h < t.slots.size := by
      have := ht.size_eq
      omega
    have hget : t.slots[h]? = some t.slots[h] := Array.getElem?_eq_getElem hlt
    -- a slot that is free, or used for another home address, is not the head of a chain
    cases hslot : t.slots[h] with
    | free prev next =>
      rw [hslot] at hget
      rw [claimChains]
      simp only [hget]
      refine (ih hheads' hsize).congr fun r => claimsAll_skip_iff fun k hk => ?_
      obtain ⟨_, _, hs⟩ := SlotArray.key_eq_some_iff.mp hk
      rw [hget] at hs
      cases hs
    | used next k v =>
      rw [hslot] at hget
      have hkey : t.slots.node.key h = some k := SlotArray.key_eq_some_iff.mpr ⟨next, v, hget⟩
      by_cases hk : t.home k = h
      · have hcount : claimed.count false < t.slots.size + 1 := by
          have hle : claimed.count false ≤ claimed.size := Array.count_le_size
          omega
        rw [claimChains_head_eq hget hk]
        refine (ht.claimChain_decides h hle hsize hcount).bind
          (fun r hr => hr.exists_claimsFrom hkey hk) fun claimed' hclaim => ?_
        obtain ⟨rest, ⟨hsegment, hu⟩, hmark⟩ := hclaim
        have hc : t.IsHomeChain h (h :: rest) := isHomeChain_iff.mpr ⟨rfl, hsegment⟩
        subst hmark
        refine (ih hheads' ((size_mark _ _).trans hsize)).congr fun r => ?_
        exact claimsAll_cons_iff ht hc hu hsize
      · rw [claimChains]
        simp only [hget, if_neg hk]
        refine (ih hheads' hsize).congr fun r => claimsAll_skip_iff fun k' hk' => ?_
        rw [hkey, Option.some.injEq] at hk'
        exact hk' ▸ hk

/-! ## Going over the keys -/

/-- The keys of some slots: each slot has been claimed, and no key is one of an earlier slot or
one that has been seen. -/
structure NewKeys (t : Table w K V) (claimed : Array Bool) (l : List Nat)
    (seen : Array (List K)) : Prop where
  claimed : ∀ i ∈ l, ∀ k, t.slots.node.key i = some k → claimed.getD i false = true
  distinct : l.Pairwise fun i j => ∀ k, t.slots.node.key i = some k →
    t.slots.node.key j ≠ some k
  unseen : ∀ i ∈ l, ∀ k, t.slots.node.key i = some k → k ∉ seen.getD (t.home k) []

theorem newKeys_cons_none_iff {seen : Array (List K)} (hi : t.slots.node.key i = none) :
    t.NewKeys claimed (i :: l) seen ↔ t.NewKeys claimed l seen := by
  constructor
  · rintro ⟨hc, hd, hu⟩
    exact ⟨(List.forall_mem_cons.mp hc).2, (List.pairwise_cons.mp hd).2,
      (List.forall_mem_cons.mp hu).2⟩
  · rintro ⟨hc, hd, hu⟩
    refine ⟨List.forall_mem_cons.mpr ⟨fun k hk => ?_, hc⟩,
      List.pairwise_cons.mpr ⟨fun j _ k hk => ?_, hd⟩,
      List.forall_mem_cons.mpr ⟨fun k hk => ?_, hu⟩⟩ <;> rw [hi] at hk <;> cases hk

/-- A key is added to those seen with its home address. -/
theorem mem_getD_insert_iff {seen : Array (List K)} {k k' : K} (hhome : t.home k < seen.size) :
    k' ∈ (seen.setIfInBounds (t.home k) (k :: seen.getD (t.home k) [])).getD (t.home k') [] ↔
      k' = k ∨ k' ∈ seen.getD (t.home k') [] := by
  simp only [Array.getD_eq_getD_getElem?, Array.getElem?_setIfInBounds]
  by_cases hh : t.home k = t.home k'
  · rw [if_pos hh, if_pos hhome, Option.getD_some, List.mem_cons, hh]
  · rw [if_neg hh]
    refine (or_iff_right ?_).symm
    rintro rfl
    exact hh rfl

/-- Of the keys behind, none may be the first one. -/
theorem newKeys_cons_iff {seen : Array (List K)} {k : K} (hi : t.slots.node.key i = some k)
    (hhome : t.home k < seen.size) : t.NewKeys claimed (i :: l) seen ↔
      (claimed.getD i false = true ∧ k ∉ seen.getD (t.home k) []) ∧
        t.NewKeys claimed l (seen.setIfInBounds (t.home k) (k :: seen.getD (t.home k) [])) := by
  have hseen : ∀ k', k' ∉ (seen.setIfInBounds (t.home k)
      (k :: seen.getD (t.home k) [])).getD (t.home k') [] ↔
      k' ≠ k ∧ k' ∉ seen.getD (t.home k') [] := fun k' => by
    rw [mem_getD_insert_iff hhome, not_or]
  constructor
  · rintro ⟨hc, hd, hu⟩
    rw [List.forall_mem_cons] at hc hu
    rw [List.pairwise_cons] at hd
    refine ⟨⟨hc.1 k hi, hu.1 k hi⟩, hc.2, hd.2, fun j hj k' hk' => (hseen k').mpr ⟨?_, ?_⟩⟩
    · rintro rfl
      exact hd.1 j hj k' hi hk'
    · exact hu.2 j hj k' hk'
  · rintro ⟨⟨hci, hui⟩, hc, hd, hu⟩
    have hkey : ∀ k', t.slots.node.key i = some k' → k' = k := fun k' hk' => by
      rw [hi, Option.some.injEq] at hk'
      exact hk'.symm
    refine ⟨List.forall_mem_cons.mpr ⟨fun _ _ => hci, hc⟩,
      List.pairwise_cons.mpr ⟨fun j hj k' hk' hj' => ?_, hd⟩,
      List.forall_mem_cons.mpr ⟨fun k' hk' => ?_, fun j hj k' hk' => ?_⟩⟩
    · exact ((hseen k').mp (hu j hj k' hj')).1 (hkey k' hk')
    · rw [hkey k' hk']
      exact hui
    · exact ((hseen k').mp (hu j hj k' hk')).2

/-- Going over some slots decides whether their keys are new, and on claimed slots. -/
theorem Shapely.checkKeys_decides [DecidableEq K] (ht : t.Shapely) {seen : Array (List K)}
    (hl : ∀ i ∈ l, i ≤ t.capacity) (hseen : seen.size = t.capacity + 1) :
    Decides (fun _ : Unit => t.NewKeys claimed l seen) (t.checkKeys claimed l seen) := by
  induction l generalizing seen with
  | nil => exact .passed ⟨by simp, List.Pairwise.nil, by simp⟩
  | cons i l ih =>
    have hle := hl i List.mem_cons_self
    have hl' : ∀ j ∈ l, j ≤ t.capacity := fun j hj => hl j (List.mem_cons_of_mem i hj)
    have hlt : i < t.slots.size := by
      have := ht.size_eq
      omega
    have hget : t.slots[i]? = some t.slots[i] := Array.getElem?_eq_getElem hlt
    rw [checkKeys]
    -- a free slot has no key, and a used one adds its key to those seen
    cases hslot : t.slots[i] with
    | free prev next =>
      rw [hslot] at hget
      have hnone : t.slots.node.key i = none := Nodes.key_eq_none
        (SlotArray.node_eq_none_of_links (SlotArray.links_eq_some_iff.mpr hget))
      simp only [hget]
      exact (ih hl' hseen).congr fun _ => (newKeys_cons_none_iff hnone).symm
    | used next k v =>
      rw [hslot] at hget
      have hkey : t.slots.node.key i = some k := SlotArray.key_eq_some_iff.mpr ⟨next, v, hget⟩
      have hhome : t.home k < seen.size := by
        have := t.home_le k
        omega
      refine Decides.congr ?_ fun _ => (newKeys_cons_iff hkey hhome).symm
      simp only [hget]
      by_cases hclaimed : claimed.getD i false = true
      · rw [hclaimed, Bool.not_true, if_neg Bool.false_ne_true]
        by_cases hdup : k ∈ seen.getD (t.home k) []
        · rw [if_pos hdup]
          exact .found trivial fun _ h => h.1.2 hdup
        · rw [if_neg hdup]
          refine (ih hl' (Array.size_setIfInBounds.trans hseen)).congr fun _ => ?_
          exact (and_iff_right ⟨rfl, hdup⟩).symm
      · rw [Bool.not_eq_true] at hclaimed
        rw [hclaimed, Bool.not_false, if_pos rfl]
        exact .found trivial fun _ h => by cases h.1.1

end Table

end HomeChain
