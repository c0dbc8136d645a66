import HomeChain.Proofs.Examination.Verdict

/-!
# What a diagnosis says

An examination that does not pass names one defect, and `Table.Diagnosis` says what each means:
the stages in front of it have been passed, and the slot that is named is the first one at which
the stage could not go on. No diagnosis is about iteration.

Every stage is a loop, and the lemma about it goes along the loop: what has been passed so far
grows by one slot at a time, until the next slot has one of the flaws that the loop looks for.
-/

namespace HomeChain

variable {w : LinkWidth} {K V : Type}

/-! ## The scan of the slots -/

/-- What the scan of the slots finds at slot `i`. -/
inductive Slot.Flaw (c i : Nat) (slot : Slot w K V) : Inconsistency → Prop where
  | occupied (anchor : i = 0) (used : slot.isUsed = true) : Flaw c i slot .sentinelOccupied
  | link (free : i = 0 → slot.isUsed = false) (outside : ¬ slot.LinksWithin c) :
      Flaw c i slot (.badLink i)

/-- A scan that ends early has gone over well-linked slots up to the first one with a flaw. -/
theorem SlotArray.scan_defect {c i used : Nat} {l : List (Slot w K V)} {d : Inconsistency}
    (h : scan c i used l = .error (.defect d)) :
    ∃ pre slot post, l = pre ++ slot :: post ∧ WellLinked c i pre ∧
      slot.Flaw c (i + pre.length) d := by
  have hnil : ∀ i, WellLinked c i ([] : List (Slot w K V)) := fun i => by
    refine ⟨fun _ slot hs => ?_, by simp⟩
    cases hs
  induction l generalizing i used with
  | nil => cases h
  | cons slot rest ih =>
    -- a slot without a flaw goes to the front of those that have been passed
    have hstep : ∀ used', (i = 0 → slot.isUsed = false) → slot.LinksWithin c →
        scan c (i + 1) used' rest = .error (.defect d) → ∃ pre flawed post,
          slot :: rest = pre ++ flawed :: post ∧ WellLinked c i pre ∧
            flawed.Flaw c (i + pre.length) d := by
      intro used' hanchor hlinks hrest
      obtain ⟨pre, flawed, post, rfl, hpre, hflaw⟩ := ih hrest
      refine ⟨slot :: pre, flawed, post, rfl, wellLinked_cons_iff.mpr ⟨⟨hanchor, hlinks⟩, hpre⟩, ?_⟩
      rwa [List.length_cons, Nat.add_comm pre.length, ← Nat.add_assoc]
    cases slot with
    | free prev next =>
      rw [scan] at h
      split at h
      · rename_i hbad
        cases h
        refine ⟨[], _, rest, rfl, hnil i, .link (fun _ => rfl) fun hlinks => ?_⟩
        rw [Slot.linksWithin_free_iff.mp hlinks] at hbad
        cases hbad
      · rename_i hgood
        exact hstep _ (fun _ => rfl)
          (Slot.linksWithin_free_iff.mpr (Bool.not_eq_true _ ▸ hgood)) h
    | used next k v =>
      rw [scan] at h
      split at h
      · rename_i h0
        cases h
        exact ⟨[], _, rest, rfl, hnil i, .occupied h0 rfl⟩
      · rename_i h0
        split at h
        · rename_i hbad
          cases h
          refine ⟨[], _, rest, rfl, hnil i, .link (fun hi => absurd hi h0) fun hlinks => ?_⟩
          rw [Slot.linksWithin_used_iff.mp hlinks] at hbad
          cases hbad
        · rename_i hgood
          exact hstep _ (fun hi => absurd hi h0)
            (Slot.linksWithin_used_iff.mpr (Bool.not_eq_true _ ▸ hgood)) h

/-! ## The walk over the free list -/

namespace SlotArray

variable {s : SlotArray w K V} {d : Direction} {c i j : Nat} {path : List Nat}

/-- In direction `d`, the links lead from the anchor over the slots of `path` to the last one,
`i`. They are different free slots, and each leads back to the one that the walk came from. -/
structure Walked (s : SlotArray w K V) (d : Direction) (path : List Nat) (i : Nat) : Prop where
  last : (0 :: path).getLast? = some i
  route : Route (s.ahead d) (0 :: path)
  back : Route (s.behind d) (path.reverse ++ [0])
  anchor_notMem : 0 ∉ path
  nodup : path.Nodup
  free : ∀ j ∈ path, s.node j = none

/-- Where a walk over `steps` slots, having come over `path` to slot `i`, has to stop. -/
inductive Stops (s : SlotArray w K V) (d : Direction) (steps : Nat) (path : List Nat) (i : Nat) :
    Nat → Prop where
  /-- Slots are left to be visited, and slot `j` is not one that the walk can go to. -/
  | early {j : Nat} (left : path.length < steps) (ahead : s.ahead d i = some j)
      (wrong : j = 0 ∨ s.isUsed j = true ∨ j ∈ path ∨ s.behind d j ≠ some i) :
      Stops s d steps path i j
  /-- All slots have been visited, and the last one does not lead to the anchor. -/
  | late (visited : path.length = steps) (wrong : s.ahead d i ≠ some 0) : Stops s d steps path i i

theorem Walked.start : s.Walked d [] 0 :=
  ⟨rfl, Route.singleton 0, Route.singleton 0, by simp, List.nodup_nil, by simp⟩

/-- The walk goes on to a free slot that is new and leads back. -/
theorem Walked.step (h : s.Walked d path i) (hij : s.ahead d i = some j) (hj0 : j ≠ 0)
    (hnode : s.node j = none) (hnew : j ∉ path) (hji : s.behind d j = some i) :
    s.Walked d (path ++ [j]) j where
  last := by rw [← List.cons_append, List.getLast?_append]; rfl
  route := by
    obtain ⟨front, hfront⟩ := List.getLast?_eq_some_iff.mp h.last
    have hroute := h.route
    rw [← List.cons_append]
    rw [hfront] at hroute ⊢
    rw [List.append_assoc, List.singleton_append, Route.append_cons]
    exact ⟨hroute, Route.cons_cons.mpr ⟨hij, Route.singleton j⟩⟩
  back := by
    have hhead : (path.reverse ++ [0]).head? = some i := by
      rw [← List.reverse_cons, List.head?_reverse]
      exact h.last
    rw [List.reverse_append, List.reverse_singleton, List.singleton_append, List.cons_append,
      Route.cons_iff hhead]
    exact ⟨hji, h.back⟩
  anchor_notMem := by
    rw [List.mem_append, List.mem_singleton, not_or]
    exact ⟨h.anchor_notMem, Ne.symm hj0⟩
  nodup := List.nodup_append.mpr ⟨h.nodup, List.nodup_singleton j, fun k hk k' hk' => by
    rw [List.mem_singleton.mp hk']
    exact ne_of_mem_of_not_mem hk hnew⟩
  free k hk := by
    rcases List.mem_append.mp hk with hk | hk
    · exact h.free k hk
    · rw [List.mem_singleton.mp hk]
      exact hnode

/-- The slot that a walk has come to is free. -/
theorem Walked.node_eq_none (h : s.Walked d path i) (h0 : s.node 0 = none) : s.node i = none := by
  rcases List.mem_cons.mp (List.mem_of_getLast? h.last) with rfl | hi
  · exact h0
  · exact h.free i hi

/-- A walk that ends early has gone from slot to slot to the one where it has to stop. -/
theorem walkFreeList_defect (hs : s.Bounded c) (h0 : s.node 0 = none) {steps : Nat}
    {seen : Array Bool} {defect : Inconsistency} (hwalked : s.Walked d path i) (hi : i ≤ c)
    (hsize : seen.size = s.size) (hseen : ∀ j, seen.getD j false = decide (j ∈ path))
    (h : s.walkFreeList d steps i seen = .error (.defect defect)) :
    ∃ path' i' j, s.Walked d path' i' ∧ s.Stops d (path.length + steps) path' i' j ∧
      defect = .brokenFreeList d j := by
  -- the slots seen are those of the path, which grows by one at every step
  induction steps generalizing path i seen with
  | zero =>
    obtain ⟨r, hr, hmap⟩ := hs.neighbours_spec hi
    rw [walkFreeList, hr, ok_bind, (hmap d).1] at h
    split at h
    · cases h
    · rename_i hend
      cases h
      exact ⟨path, i, i, hwalked, .late rfl hend, rfl⟩
  | succ steps ih =>
    obtain ⟨r, hr, hmap⟩ := hs.neighbours_spec hi
    have hahead := (hmap d).1
    rw [walkFreeList, hr, ok_bind] at h
    cases r with
    | none =>
      have hused := isUsed_of_neighbours hr
      rw [isUsed_eq_isSome, hwalked.node_eq_none h0] at hused
      cases hused
    | some x =>
      obtain ⟨j, hj⟩ : ∃ j, j = d.ahead x := ⟨_, rfl⟩
      rw [Option.map_some, ← hj] at hahead
      have hle : j ≤ c := hs.ahead_le hahead.symm
      have hleft : path.length < path.length + (steps + 1) := by omega
      dsimp only at h
      rw [← hj] at h
      split at h
      · rename_i hbad
        cases h
        simp only [hseen, Bool.or_eq_true, decide_eq_true_iff] at hbad
        refine ⟨path, i, j, hwalked, .early hleft hahead.symm ?_, rfl⟩
        rcases hbad with (hj0 | hused) | hmem
        · exact .inl hj0
        · exact .inr (.inl hused)
        · exact .inr (.inr (.inl hmem))
      · rename_i hgood
        simp only [hseen, Bool.or_eq_true, decide_eq_true_iff, not_or, Bool.not_eq_true] at hgood
        obtain ⟨⟨hj0, hfree⟩, hnew⟩ := hgood
        obtain ⟨r', hr', hmap'⟩ := hs.neighbours_spec hle
        rw [hr', ok_bind, (hmap' d).2] at h
        split at h
        · rename_i hback
          cases h
          exact ⟨path, i, j, hwalked, .early hleft hahead.symm (.inr (.inr (.inr hback))), rfl⟩
        · rename_i hback
          rw [isUsed_eq_false_iff] at hfree
          have hjseen : j < seen.size := by
            have := hs.size_eq
            omega
          have hstep := hwalked.step hahead.symm hj0 hfree hnew (not_not.mp hback)
          have hlength : (path ++ [j]).length + steps = path.length + (steps + 1) := by
            rw [List.length_append, List.length_singleton]
            omega
          rw [← hlength]
          refine ih hstep hle (Array.size_setIfInBounds.trans hsize) (fun k => ?_) h
          rw [getD_setIfInBounds_true hjseen, hseen, ← Bool.decide_or]
          simp only [List.mem_append, List.mem_singleton, or_comm]

end SlotArray

namespace Table

variable {t : Table w K V} {d : Inconsistency} {g h i j : Nat} {l done heads : List Nat}
  {claimed claimed' : Array Bool}

/-! ## The walk along a chain -/

/-- Slot `h` is the head of a chain: it holds a key with home address `h`. -/
def IsHead (t : Table w K V) (h : Nat) : Prop := ∃ k, t.slots.node.key h = some k ∧ t.home k = h

/-- From its head `h`, a chain leads over the slots of `l` to slot `i`. They are different slots,
their keys have home address `h`, and none of them has been `taken` by an earlier chain. -/
structure LeadsTo (t : Table w K V) (taken : Nat → Prop) (h : Nat) (l : List Nat) (i : Nat) :
    Prop where
  isHead : t.IsHead h
  head : (l ++ [i]).head? = some h
  route : Route t.slots.node.succ (l ++ [i])
  home : ∀ j ∈ l, ∃ k, t.slots.node.key j = some k ∧ t.home k = h
  nodup : l.Nodup
  untaken : ∀ j ∈ l, ¬ taken j

/-- Why a chain that has come over `l` to slot `i` cannot be followed from there. -/
inductive Strays (t : Table w K V) (taken : Nat → Prop) (h : Nat) (l : List Nat) (i : Nat) :
    Inconsistency → Prop where
  | free (inside : i < t.slots.size) (free : t.slots.node i = none) :
      Strays t taken h l i (.chainThroughFreeSlot h i)
  | shared (used : t.slots.isUsed i = true) (again : i ∈ l ∨ taken i) :
      Strays t taken h l i (.sharedSlot h i)
  | foreign {k : K} (key : t.slots.node.key i = some k) (new : i ∉ l ∧ ¬ taken i)
      (foreign : t.home k ≠ h) : Strays t taken h l i (.foreignMember h i (t.home k))

theorem IsHead.leadsTo (hh : t.IsHead h) (taken : Nat → Prop) : t.LeadsTo taken h [] h :=
  ⟨hh, rfl, Route.singleton h, by simp, List.nodup_nil, by simp⟩

/-- A chain goes on to where its next member leads. -/
theorem LeadsTo.step {taken : Nat → Prop} {k : K} (hr : t.LeadsTo taken h l i)
    (hkey : t.slots.node.key i = some k) (hk : t.home k = h) (hnew : i ∉ l) (htaken : ¬ taken i)
    (hij : t.slots.node.succ i = some j) : t.LeadsTo taken h (l ++ [i]) j where
  isHead := hr.isHead
  head := by
    rw [List.append_assoc, List.singleton_append, List.head?_append, List.head?_cons,
      ← List.head?_cons (a := i) (l := []), ← List.head?_append]
    exact hr.head
  route := by
    rw [List.append_assoc, List.singleton_append, Route.append_cons]
    exact ⟨hr.route, Route.cons_cons.mpr ⟨hij, Route.singleton j⟩⟩
  home j' hj' := by
    rcases List.mem_append.mp hj' with hj' | hj'
    · exact hr.home j' hj'
    · rw [List.mem_singleton.mp hj']
      exact ⟨k, hkey, hk⟩
  nodup := List.nodup_append.mpr ⟨hr.nodup, List.nodup_singleton i, fun a ha b hb => by
    rw [List.mem_singleton.mp hb]
    exact ne_of_mem_of_not_mem ha hnew⟩
  untaken j' hj' := by
    rcases List.mem_append.mp hj' with hj' | hj'
    · exact hr.untaken j' hj'
    · rw [List.mem_singleton.mp hj']
      exact htaken

/-- Following a chain ends early at the first slot where it strays. -/
theorem Shapely.claimChain_defect (ht : t.Shapely) {taken : Nat → Prop} {steps : Nat}
    (hr : t.LeadsTo taken h l i) (hi : i ≤ t.capacity) (hsize : claimed.size = t.slots.size)
    (hclaimed : ∀ j, claimed.getD j false = true ↔ j ∈ l ∨ taken j)
    (hd : t.claimChain h steps i claimed = .error (.defect d)) :
    ∃ l' i', t.LeadsTo taken h l' i' ∧ t.Strays taken h l' i' d := by
  -- besides the slots of earlier chains, those of `l` have been claimed, and `l` grows
  induction steps generalizing l i claimed with
  | zero => cases hd
  | succ steps ih =>
    have hlt : i < t.slots.size := by
      have := ht.size_eq
      omega
    have hget : t.slots[i]? = some t.slots[i] := Array.getElem?_eq_getElem hlt
    rw [claimChain] at hd
    cases hslot : t.slots[i] with
    | free prev next =>
      rw [hslot] at hget
      simp only [hget] at hd
      cases hd
      exact ⟨l, i, hr, .free hlt (SlotArray.free_iff.mp ⟨prev, next, hget⟩).2⟩
    | used next k v =>
      rw [hslot] at hget
      have hkey : t.slots.node.key i = some k := SlotArray.key_eq_some_iff.mpr ⟨next, v, hget⟩
      simp only [hget] at hd
      split at hd
      · rename_i hagain
        cases hd
        have hused : t.slots.isUsed i = true := by
          rw [SlotArray.isUsed_eq_isSome, SlotArray.node_eq_some_iff.mpr hget]
          rfl
        exact ⟨l, i, hr, .shared hused ((hclaimed i).mp hagain)⟩
      · rename_i hnew
        rw [hclaimed, not_or] at hnew
        split at hd
        · rename_i hk
          cases hd
          exact ⟨l, i, hr, .foreign hkey hnew hk⟩
        · rename_i hk
          split at hd
          · cases hd
          · obtain ⟨j, hdecode, hj, hij⟩ := ht.exists_decodeIndex hget
            rw [hdecode] at hd
            have hisize : i < claimed.size := by omega
            refine ih (hr.step hkey (not_not.mp hk) hnew.1 hnew.2 hij) hj
              (Array.size_setIfInBounds.trans hsize) (fun j' => ?_) hd
            rw [getD_setIfInBounds_true hisize, Bool.or_eq_true, decide_eq_true_iff, hclaimed,
              List.mem_append, List.mem_singleton]
            tauto

/-! ## The chains of all heads -/

/-- Slot `i` is on the chain of one of the heads in `done`. -/
def Taken (t : Table w K V) (done : List Nat) (i : Nat) : Prop :=
  ∃ g ∈ done, ∃ c, t.IsHomeChain g c ∧ i ∈ c

/-- The heads in `done` have chains, and the slots of these have been claimed. -/
structure Followed (t : Table w K V) (done : List Nat) (claimed : Array Bool) : Prop where
  size_eq : claimed.size = t.slots.size
  chain : ∀ g ∈ done, t.IsHead g → ∃ c, t.IsHomeChain g c
  claimed_iff : ∀ i, claimed.getD i false = true ↔ t.Taken done i

/-- A slot that is not a head adds nothing. -/
theorem Followed.skip (hf : t.Followed done claimed) (hh : ¬ t.IsHead h) :
    t.Followed (done ++ [h]) claimed where
  size_eq := hf.size_eq
  chain g hg hhead := by
    rcases List.mem_append.mp hg with hg | hg
    · exact hf.chain g hg hhead
    · exact absurd (List.mem_singleton.mp hg ▸ hhead) hh
  claimed_iff i := by
    rw [hf.claimed_iff]
    constructor
    · rintro ⟨g, hg, hc⟩
      exact ⟨g, List.mem_append_left [h] hg, hc⟩
    · rintro ⟨g, hg, c, hc, hi⟩
      rcases List.mem_append.mp hg with hg | hg
      · exact ⟨g, hg, c, hc, hi⟩
      · exact absurd (List.mem_singleton.mp hg ▸ hc.exists_key) hh

/-- A head whose chain could be followed is one more that has been followed. -/
theorem Followed.step (ht : t.Shapely) (hf : t.Followed done claimed)
    (hc : t.ClaimsFrom h h claimed claimed') : t.Followed (done ++ [h]) claimed' := by
  obtain ⟨rest, ⟨hsegment, -⟩, rfl⟩ := hc
  have hchain : t.IsHomeChain h (h :: rest) := isHomeChain_iff.mpr ⟨rfl, hsegment⟩
  refine ⟨(size_mark _ _).trans hf.size_eq, fun g hg hhead => ?_, fun i => ?_⟩
  · rcases List.mem_append.mp hg with hg | hg
    · exact hf.chain g hg hhead
    · rw [List.mem_singleton.mp hg]
      exact ⟨_, hchain⟩
  · rw [getD_mark fun j hj => hf.size_eq ▸ hsegment.lt_size hj, Bool.or_eq_true,
      decide_eq_true_iff, hf.claimed_iff]
    constructor
    · rintro (hi | ⟨g, hg, hc⟩)
      · exact ⟨h, by simp, _, hchain, hi⟩
      · exact ⟨g, List.mem_append_left [h] hg, hc⟩
    · rintro ⟨g, hg, c, hc, hi⟩
      rcases List.mem_append.mp hg with hg | hg
      · exact .inr ⟨g, hg, c, hc, hi⟩
      · rw [List.mem_singleton.mp hg] at hc
        exact .inl (hc.unique hchain ht.anchor_free ▸ hi)

/-- Following the chains ends early with the first head whose chain strays. -/
theorem Shapely.claimChains_defect (ht : t.Shapely) {n : Nat} (hf : t.Followed done claimed)
    (hheads : ∀ h ∈ heads, h ≤ t.capacity)
    (hd : t.claimChains heads n claimed = .error (.defect d)) :
    ∃ done' h rest claimed', done ++ heads = done' ++ h :: rest ∧ t.Followed done' claimed' ∧
      ∃ l i, t.LeadsTo (t.Taken done') h l i ∧ t.Strays (t.Taken done') h l i d := by
  induction heads generalizing done n claimed with
  | nil => cases hd
  | cons h heads ih =>
    have hle := hheads h List.mem_cons_self
    have hheads' : ∀ h' ∈ heads, h' ≤ t.capacity := fun h' hh' =>
      hheads h' (List.mem_cons_of_mem h hh')
    have hlt : h < t.slots.size := by
      have := ht.size_eq
      omega
    have hget : t.slots[h]? = some t.slots[h] := Array.getElem?_eq_getElem hlt
    have happend : done ++ h :: heads = done ++ [h] ++ heads := by simp
    cases hslot : t.slots[h] with
    | free prev next =>
      rw [hslot] at hget
      rw [claimChains] at hd
      simp only [hget] at hd
      have hno : ¬ t.IsHead h := by
        rintro ⟨k, hk, -⟩
        obtain ⟨_, _, hs⟩ := SlotArray.key_eq_some_iff.mp hk
        rw [hget] at hs
        cases hs
      rw [happend]
      exact ih (hf.skip hno) hheads' hd
    | used next k v =>
      rw [hslot] at hget
      have hkey : t.slots.node.key h = some k := SlotArray.key_eq_some_iff.mpr ⟨next, v, hget⟩
      by_cases hk : t.home k = h
      · rw [claimChains_head_eq hget hk] at hd
        have hhead : t.IsHead h := ⟨k, hkey, hk⟩
        have hcount : claimed.count false < t.slots.size + 1 := by
          have hcs : claimed.count false ≤ claimed.size := Array.count_le_size
          have := hf.size_eq
          omega
        cases hclaim : t.claimChain h (t.slots.size + 1) h claimed with
        | error halt =>
          rw [hclaim] at hd
          cases hd
          have hempty : ∀ j, claimed.getD j false = true ↔ j ∈ ([] : List Nat) ∨ t.Taken done j :=
            fun j => (hf.claimed_iff j).trans (by simp)
          exact ⟨done, h, heads, claimed, rfl, hf,
            ht.claimChain_defect (hhead.leadsTo _) hle hf.size_eq hempty hclaim⟩
        | ok claimed' =>
          rw [hclaim, ok_bind] at hd
          have hdecides := ht.claimChain_decides h hle hf.size_eq hcount
          rw [hclaim] at hdecides
          cases hdecides with
          | passed hc =>
            rw [happend]
            exact ih (hf.step ht hc) hheads' hd
      · rw [claimChains] at hd
        simp only [hget, if_neg hk] at hd
        have hno : ¬ t.IsHead h := by
          rintro ⟨k', hk', hkh⟩
          rw [hkey, Option.some.injEq] at hk'
          exact hk (hk' ▸ hkh)
        rw [happend]
        exact ih (hf.skip hno) hheads' hd

/-! ## Going over the keys -/

/-- The entries in the slots of `done` are on chains and have different keys. -/
structure Cleared (t : Table w K V) (taken : Nat → Prop) (done : List Nat) : Prop where
  on : ∀ j ∈ done, ∀ k, t.slots.node.key j = some k → taken j
  distinct : done.Pairwise fun i j => ∀ k, t.slots.node.key i = some k →
    t.slots.node.key j ≠ some k

/-- What is wrong with the entry in slot `i`, behind those in the slots of `done`. -/
inductive Misplaced (t : Table w K V) (taken : Nat → Prop) (done : List Nat) (i : Nat) :
    Inconsistency → Prop where
  | unreachable {k : K} (key : t.slots.node.key i = some k) (off : ¬ taken i) :
      Misplaced t taken done i (.unreachable i (t.home k))
  | duplicate {k : K} (key : t.slots.node.key i = some k) (on : taken i)
      (twice : ∃ j ∈ done, t.slots.node.key j = some k) :
      Misplaced t taken done i (.duplicateKey i)

theorem Cleared.start (taken : Nat → Prop) : t.Cleared taken [] := ⟨by simp, List.Pairwise.nil⟩

/-- A slot is cleared that holds no key, or a new one and is on a chain. -/
theorem Cleared.step {taken : Nat → Prop} (hc : t.Cleared taken done)
    (hi : ∀ k, t.slots.node.key i = some k →
      taken i ∧ ∀ j ∈ done, t.slots.node.key j ≠ some k) : t.Cleared taken (done ++ [i]) where
  on j hj k hk := by
    rcases List.mem_append.mp hj with hj | hj
    · exact hc.on j hj k hk
    · rw [List.mem_singleton.mp hj] at hk ⊢
      exact (hi k hk).1
  distinct := by
    refine List.pairwise_append.mpr ⟨hc.distinct, List.pairwise_singleton _ i, ?_⟩
    intro j hj i' hi' k hjk hik
    rw [List.mem_singleton.mp hi'] at hik
    exact (hi k hik).2 j hj hjk

/-- Going over the keys ends early at the first slot whose entry is misplaced. -/
theorem Shapely.checkKeys_defect [DecidableEq K] (ht : t.Shapely) {seen : Array (List K)}
    {taken : Nat → Prop} (hclaimed : ∀ i, claimed.getD i false = true ↔ taken i)
    (hl : ∀ i ∈ l, i ≤ t.capacity) (hsize : seen.size = t.capacity + 1)
    (hseen : ∀ k, k ∈ seen.getD (t.home k) [] ↔ ∃ j ∈ done, t.slots.node.key j = some k)
    (hc : t.Cleared taken done) (hd : t.checkKeys claimed l seen = .error (.defect d)) :
    ∃ done' i rest, done ++ l = done' ++ i :: rest ∧ t.Cleared taken done' ∧
      t.Misplaced taken done' i d := by
  induction l generalizing done seen with
  | nil => cases hd
  | cons i l ih =>
    have hle := hl i List.mem_cons_self
    have hl' : ∀ j ∈ l, j ≤ t.capacity := fun j hj => hl j (List.mem_cons_of_mem i hj)
    have hlt : i < t.slots.size := by
      have := ht.size_eq
      omega
    have hget : t.slots[i]? = some t.slots[i] := Array.getElem?_eq_getElem hlt
    have happend : done ++ i :: l = done ++ [i] ++ l := by simp
    rw [checkKeys] at hd
    cases hslot : t.slots[i] with
    | free prev next =>
      rw [hslot] at hget
      have hnone : t.slots.node.key i = none := Nodes.key_eq_none
        (SlotArray.node_eq_none_of_links (SlotArray.links_eq_some_iff.mpr hget))
      simp only [hget] at hd
      rw [happend]
      refine ih hl' hsize (fun k => ?_) (hc.step fun k hk => ?_) hd
      · rw [hseen]
        simp only [List.mem_append, List.mem_singleton, or_and_right, exists_or, exists_eq_left,
          hnone, reduceCtorEq, or_false]
      · rw [hnone] at hk
        cases hk
    | used next k v =>
      rw [hslot] at hget
      have hkey : t.slots.node.key i = some k := SlotArray.key_eq_some_iff.mpr ⟨next, v, hget⟩
      simp only [hget] at hd
      split at hd
      · rename_i hoff
        cases hd
        rw [Bool.not_eq_true', ← Bool.not_eq_true, hclaimed] at hoff
        exact ⟨done, i, l, rfl, hc, .unreachable hkey hoff⟩
      · rename_i hon
        rw [Bool.not_eq_true, Bool.not_eq_false', hclaimed] at hon
        split at hd
        · rename_i htwice
          cases hd
          exact ⟨done, i, l, rfl, hc, .duplicate hkey hon ((hseen k).mp htwice)⟩
        · rename_i hnew
          have hhome : t.home k < seen.size := by
            have := t.home_le k
            omega
          rw [happend]
          refine ih hl' (Array.size_setIfInBounds.trans hsize) (fun k' => ?_)
            (hc.step fun k' hk' => ⟨hon, fun j hj hjk => hnew ?_⟩) hd
          · rw [mem_getD_insert_iff hhome, hseen]
            simp only [List.mem_append, List.mem_singleton, or_and_right, exists_or, exists_eq_left,
              hkey, Option.some.injEq]
            exact or_comm.trans (or_congr_right eq_comm)
          · rw [hkey, Option.some.injEq] at hk'
            exact (hseen k).mpr ⟨j, hj, hk' ▸ hjk⟩

/-! ## Diagnoses -/

/-- The array has the size that goes with a capacity that is a power of two. -/
structure Sized (t : Table w K V) : Prop where
  capacity_pow : ∃ n, t.capacity = 2 ^ n
  size_eq : t.slots.size = t.capacity + 1

/-- Slot `i` is on the chain of a head in front of `h`. -/
def OnChainBelow (t : Table w K V) (h i : Nat) : Prop := ∃ g < h, ∃ c, t.IsHomeChain g c ∧ i ∈ c

/-- Slot `i` is on a chain. -/
def OnChain (t : Table w K V) (i : Nat) : Prop := ∃ h c, t.IsHomeChain h c ∧ i ∈ c

/-- What it means that an examination of `t` names a defect. -/
inductive Diagnosis (t : Table w K V) : Inconsistency → Prop where
  | size (wrong : ¬ t.Sized) : Diagnosis t (.badCapacity t.capacity t.slots.size)
  /-- Slot `i` is the first one with a flaw. -/
  | slot {d : Inconsistency} {i : Nat} {slot : Slot w K V} (sized : t.Sized)
      (first : ∀ j < i, ∀ slot, t.slots[j]? = some slot →
        (j = 0 → slot.isUsed = false) ∧ slot.LinksWithin t.capacity)
      (get : t.slots[i]? = some slot) (flaw : slot.Flaw t.capacity i d) : Diagnosis t d
  | count (sized : t.Sized) (linked : WellLinked t.capacity 0 t.slots.toList)
      (wrong : t.len ≠ t.slots.usedCount) : Diagnosis t (.countMismatch t.len t.slots.usedCount)
  /-- The walk in direction `dir` has to stop at slot `j`; the one forward comes first. -/
  | freeList {dir : Direction} {path : List Nat} {i j : Nat} (shapely : t.Shapely)
      (broken : ¬ ∃ order, t.FreeOrder order)
      (forward : dir = .backward → ∃ order, order.length = t.slots.freeCount ∧
        t.slots.Circuit .forward 0 order (Array.replicate t.slots.size false))
      (walked : t.slots.Walked dir path i)
      (stops : t.slots.Stops dir t.slots.freeCount path i j) :
      Diagnosis t (.brokenFreeList dir j)
  /-- The chain of `h`, the first one that cannot be followed, strays at slot `i`. -/
  | chain {d : Inconsistency} {h i : Nat} {l : List Nat} (shapely : t.Shapely)
      (freeOrder : ∃ order, t.FreeOrder order)
      (earlier : ∀ g < h, t.IsHead g → ∃ c, t.IsHomeChain g c)
      (leads : t.LeadsTo (t.OnChainBelow h) h l i)
      (strays : t.Strays (t.OnChainBelow h) h l i d) : Diagnosis t d
  /-- The entry in slot `i` is the first one that is misplaced. -/
  | entry {d : Inconsistency} {i : Nat} (shapely : t.Shapely)
      (freeOrder : ∃ order, t.FreeOrder order)
      (chains : ∀ h, t.IsHead h → ∃ c, t.IsHomeChain h c)
      (first : t.Cleared t.OnChain (List.range' 1 (i - 1)))
      (misplaced : t.Misplaced t.OnChain (List.range' 1 (i - 1)) i d) : Diagnosis t d

/-- A defect of the first stage is what it says. -/
theorem checkShape_defect (h : t.checkShape = .error (.defect d)) : t.Diagnosis d := by
  unfold checkShape at h
  split at h
  · rename_i hbad
    cases h
    refine .size fun hs => ?_
    rw [isPowerOfTwo_iff.mpr hs.capacity_pow, hs.size_eq] at hbad
    simp at hbad
  · rename_i hgood
    simp only [ne_eq, decide_not, Bool.or_eq_true, Bool.not_eq_true', not_or, Bool.not_eq_false,
      decide_eq_false_iff_not, not_not] at hgood
    have hsized : t.Sized := ⟨isPowerOfTwo_iff.mp hgood.1, hgood.2⟩
    have hscan := SlotArray.scan_decides t.capacity 0 0 t.slots.toList
    cases hx : SlotArray.scan t.capacity 0 0 t.slots.toList with
    | error halt =>
      rw [hx] at h
      cases h
      obtain ⟨pre, slot, post, hsplit, hpre, hflaw⟩ := SlotArray.scan_defect hx
      have hget : ∀ j, t.slots[j]? = (pre ++ slot :: post)[j]? := fun j => by
        rw [← hsplit, Array.getElem?_toList]
      rw [Nat.zero_add] at hflaw
      refine .slot hsized (fun j hj slot' hs => ?_) (i := pre.length) ?_ hflaw
      · rw [hget, List.getElem?_append_left hj] at hs
        refine ⟨fun hj0 => hpre.anchor rfl slot' ?_, hpre.links slot' (List.mem_of_getElem? hs)⟩
        rw [hj0, ← List.head?_eq_getElem?] at hs
        exact hs
      · rw [hget, List.getElem?_append_right le_rfl, Nat.sub_self]
        rfl
    | ok used =>
      rw [hx] at h hscan
      cases hscan with
      | passed holds =>
        obtain ⟨hcount, hlinked⟩ := holds
        rw [Nat.zero_add, SlotArray.countP_eq_usedCount (hlinked.anchor rfl)] at hcount
        rw [ok_bind] at h
        split at h
        · rename_i hne
          cases h
          rw [hcount] at hne ⊢
          exact .count hsized hlinked (Ne.symm hne)
        · rename_i heq
          -- iteration gives as many entries as are counted right
          have hlen : t.len = t.slots.usedCount := (not_not.mp heq).symm.trans hcount
          rw [if_neg (not_not.mpr (length_entries hlen))] at h
          cases h

/-- A defect of the second stage is what it says. -/
theorem Shapely.freeLists_defect (ht : t.Shapely)
    (h : (do
      t.slots.checkFreeList (t.capacity - t.len) .forward
      t.slots.checkFreeList (t.capacity - t.len) .backward) = .error (.defect d)) :
    t.Diagnosis d := by
  have hbroken : ¬ ∃ order, t.FreeOrder order := by
    have hdecides := ht.freeLists_decide
    rw [h] at hdecides
    cases hdecides with
    | found _ fails => exact fails ()
  have hcount : t.slots.freeCount = t.capacity - t.len := by
    rw [SlotArray.freeCount, SlotArray.capacity, ht.size_eq, ht.len_eq, Nat.add_sub_cancel]
  have hanchor : t.slots.node 0 = none := (SlotArray.free_iff.mp ht.anchor_free).2
  have hdefect : ∀ {dir defect},
      t.slots.checkFreeList (t.capacity - t.len) dir = .error (.defect defect) →
      ∃ path i j, t.slots.Walked dir path i ∧ t.slots.Stops dir t.slots.freeCount path i j ∧
        defect = .brokenFreeList dir j := fun {dir defect} hx => by
    have := SlotArray.walkFreeList_defect ht.bounded hanchor .start (Nat.zero_le _)
      Array.size_replicate (fun j => getD_replicate_false _ j) hx
    rwa [List.length_nil, Nat.zero_add, ← hcount] at this
  cases hforward : t.slots.checkFreeList (t.capacity - t.len) .forward with
  | error halt =>
    rw [hforward] at h
    cases h
    obtain ⟨path, i, j, hwalked, hstops, rfl⟩ := hdefect hforward
    exact .freeList ht hbroken (fun hdir => by cases hdir) hwalked hstops
  | ok _ =>
    rw [hforward, ok_bind] at h
    obtain ⟨path, i, j, hwalked, hstops, rfl⟩ := hdefect h
    have hdecides := SlotArray.checkFreeList_decides ht.bounded .forward (t.capacity - t.len)
    rw [hforward] at hdecides
    cases hdecides with
    | passed hcircuit =>
      exact .freeList ht hbroken (fun _ => hcount.symm ▸ hcircuit) hwalked hstops

/-- The slots for entries that come before slot `i`. -/
theorem indices_eq_append {rest : List Nat} (h : t.indices = done ++ i :: rest) :
    done = List.range' 1 (i - 1) := by
  obtain ⟨k, -, hdone, hrest⟩ := List.range'_eq_append_iff.mp h
  obtain ⟨hi, -⟩ := List.range'_eq_cons_iff.mp hrest.symm
  rw [hdone, ← hi, Nat.mul_one, Nat.add_sub_cancel_left]

/-- No chain starts in the anchor. -/
theorem taken_range'_iff : t.Taken (List.range' 1 (h - 1)) i ↔ t.OnChainBelow h i := by
  constructor
  · rintro ⟨g, hg, hc⟩
    rw [List.mem_range'_1] at hg
    exact ⟨g, by omega, hc⟩
  · rintro ⟨g, hg, c, hc, hi⟩
    obtain ⟨k, -, hk⟩ := hc.exists_key
    have := t.home_pos k
    exact ⟨g, List.mem_range'_1.mpr (by omega), c, hc, hi⟩

/-- A defect of the third stage is what it says. -/
theorem Shapely.chains_defect (ht : t.Shapely) (horder : ∃ order, t.FreeOrder order) {n : Nat}
    (h : t.claimChains t.indices n (Array.replicate (t.capacity + 1) false) =
      .error (.defect d)) : t.Diagnosis d := by
  have hstart : t.Followed [] (Array.replicate (t.capacity + 1) false) := by
    refine ⟨by rw [Array.size_replicate, ht.size_eq], by simp, fun i => ?_⟩
    rw [getD_replicate_false]
    simp [Taken]
  obtain ⟨done, h, rest, claimed, hsplit, hf, l, i, hleads, hstrays⟩ :=
    ht.claimChains_defect hstart (fun h hh => (mem_indices_iff.mp hh).2) h
  rw [List.nil_append] at hsplit
  obtain rfl := indices_eq_append hsplit
  have htaken : t.Taken (List.range' 1 (h - 1)) = t.OnChainBelow h :=
    funext fun i => propext taken_range'_iff
  rw [htaken] at hleads hstrays
  refine .chain ht horder (fun g hg hhead => hf.chain g ?_ hhead) hleads hstrays
  obtain ⟨k, -, hk⟩ := hhead
  have := t.home_pos k
  exact List.mem_range'_1.mpr (by omega)

/-- A defect of the fourth stage is what it says, where the slots of all chains have been
claimed. -/
theorem Shapely.keys_defect [DecidableEq K] (ht : t.Shapely)
    (horder : ∃ order, t.FreeOrder order) (hf : t.Followed t.indices claimed)
    (h : t.checkKeys claimed t.indices (Array.replicate (t.capacity + 1) []) =
      .error (.defect d)) : t.Diagnosis d := by
  have htaken : ∀ i, claimed.getD i false = true ↔ t.OnChain i := fun i => by
    rw [hf.claimed_iff]
    constructor
    · rintro ⟨g, -, hc⟩
      exact ⟨g, hc⟩
    · rintro ⟨g, c, hc, hi⟩
      obtain ⟨k, -, hk⟩ := hc.exists_key
      exact ⟨g, hk ▸ t.home_mem_indices k, c, hc, hi⟩
  have hseen : ∀ k, k ∈ (Array.replicate (t.capacity + 1) []).getD (t.home k) [] ↔
      ∃ j ∈ ([] : List Nat), t.slots.node.key j = some k := fun k => by
    rw [Array.getD_eq_getD_getElem?, Array.getElem?_replicate]
    split <;> simp
  obtain ⟨done, i, rest, hsplit, hcleared, hmisplaced⟩ := ht.checkKeys_defect htaken
    (fun i hi => (mem_indices_iff.mp hi).2) Array.size_replicate hseen (.start _) h
  rw [List.nil_append] at hsplit
  obtain rfl := indices_eq_append hsplit
  refine .entry ht horder (fun h hh => hf.chain h ?_ hh) hcleared hmisplaced
  obtain ⟨k, -, hk⟩ := hh
  exact hk ▸ t.home_mem_indices k

/-- A head has a chain among those that have been found. -/
theorem exists_mem_of_isHead {chains : List (List Nat)}
    (hheads : List.Forall₂ t.HeadChain heads chains) (hg : g ∈ heads) (hhead : t.IsHead g) :
    ∃ c ∈ chains, t.IsHomeChain g c := by
  obtain ⟨k, hk, hkg⟩ := hhead
  induction hheads with
  | nil => cases hg
  | cons hc _ ih =>
    rcases List.mem_cons.mp hg with rfl | hg
    · exact ⟨_, List.mem_cons_self, hc.isHomeChain hk hkg⟩
    · obtain ⟨c, hcmem, hchain⟩ := ih hg
      exact ⟨c, List.mem_cons_of_mem _ hcmem, hchain⟩

/-- Where the third stage has claimed all chains, it has followed them. -/
theorem Shapely.followed (ht : t.Shapely)
    (hc : t.ClaimsAll t.indices (Array.replicate (t.capacity + 1) false) claimed) :
    t.Followed t.indices claimed := by
  obtain ⟨chains, ⟨hheads, -, -⟩, rfl⟩ := hc
  refine ⟨by rw [size_mark, Array.size_replicate, ht.size_eq], fun g hg hhead => ?_, fun i => ?_⟩
  · obtain ⟨c, -, hchain⟩ := exists_mem_of_isHead hheads hg hhead
    exact ⟨c, hchain⟩
  · rw [ht.getD_mark_flatten hheads]
    constructor
    · intro hi
      obtain ⟨c, hic, g, hchain⟩ := exists_isHomeChain hheads hi
      obtain ⟨k, -, hk⟩ := hchain.exists_key
      exact ⟨g, hk ▸ t.home_mem_indices k, c, hchain, hic⟩
    · rintro ⟨g, hg, c, hchain, hic⟩
      obtain ⟨c', hmem, hchain'⟩ := exists_mem_of_isHead hheads hg hchain.exists_key
      exact List.mem_flatten.mpr ⟨c', hmem, hchain'.unique hchain ht.anchor_free ▸ hic⟩

/-- An examination that names a defect is right about it. -/
theorem check_defect [DecidableEq K] (h : t.check.outcome = .ok (.error d)) : t.Diagnosis d := by
  have hreport : ∀ {halt}, (reportHalt halt).outcome = .ok (.error d) → halt = .defect d := by
    intro halt hr
    cases halt with
    | fault f => cases hr
    | defect d' => cases hr; rfl
  unfold check at h
  cases hshape : t.checkShape with
  | error halt =>
    rw [hshape] at h
    rw [hreport h] at hshape
    exact checkShape_defect hshape
  | ok used =>
    have hdecides := t.checkShape_decides
    rw [hshape] at hdecides
    obtain ⟨rfl, ht⟩ : used = t.len ∧ t.Shapely := by
      cases hdecides with
      | passed holds => exact holds
    simp only [hshape, Traced.outcome_bind, Traced.outcome_emit, ok_bind] at h
    have hfree := ht.freeLists_decide
    split at h
    · rename_i halt hx
      rw [hreport h] at hx
      exact ht.freeLists_defect hx
    · rename_i hx
      rw [hx] at hfree
      have horder : ∃ order, t.FreeOrder order := by
        cases hfree with
        | passed holds => exact holds
      split at h
      · rename_i halt hx
        rw [hreport h] at hx
        exact ht.chains_defect horder hx
      · rename_i n claimed hx
        have hindices : ∀ i ∈ t.indices, i ≤ t.capacity := fun i hi => (mem_indices_iff.mp hi).2
        have hsize : (Array.replicate (t.capacity + 1) false).size = t.slots.size := by
          rw [Array.size_replicate, ht.size_eq]
        have hclaims := ht.claimChains_decides (n := 0) hindices hsize
        rw [hx] at hclaims
        have hfollowed : t.Followed t.indices claimed := by
          cases hclaims with
          | passed holds => exact ht.followed holds
        simp only [Traced.outcome_bind, Traced.outcome_emit, ok_bind] at h
        split at h
        · rename_i halt hx
          rw [hreport h] at hx
          exact ht.keys_defect horder hfollowed hx
        · cases h

/-- An examination of any table, however damaged, ends with a verdict. Either the table is in
order, or the defect that is named is there, at the place and in the stage that it says; it is
never one of iteration. -/
theorem check_diagnoses [DecidableEq K] (t : Table w K V) :
    ∃ v, t.check.outcome = .ok v ∧ ((v = .ok () ∧ t.InOrder) ∨
      ∃ d, v = .error d ∧ ¬ t.InOrder ∧ t.Diagnosis d ∧ d.IsFinding) := by
  obtain ⟨v, hv, hverdict⟩ := t.check_verdict
  refine ⟨v, hv, ?_⟩
  cases hverdict with
  | inOrder ht => exact .inl ⟨rfl, ht⟩
  | @defect d finding hno => exact .inr ⟨d, rfl, hno, check_defect hv, finding⟩

end Table

end HomeChain
