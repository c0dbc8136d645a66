import HomeChain.Proofs.Scanning

/-!
# What a lookup reads

A lookup compares the key it looks for with the keys in some slots, one after the other, and
`Table.probes` lists these slots. `Table.Reads` says which they are on a table that passes an
examination: the members of the key's chain up to the one with the key, or the whole chain, or,
where the home slot is lent to another chain, the rest of that one.

That a slot is read shows in what the lookup answers: if its key were the one looked for, the
lookup would end there; and the key in a slot that is not read makes no difference.
-/

namespace HomeChain

variable {w : LinkWidth} {K V : Type}

namespace SlotArray

variable {s : SlotArray w K V} {key k : K} {v : V} {next : Link w} {i x : Nat}

/-- The array with another key in the used slot `i`. -/
def rekey (s : SlotArray w K V) (i : Nat) (key : K) : SlotArray w K V :=
  match s[i]? with
  | some (.used next _ v) => s.setIfInBounds i (.used next key v)
  | _ => s

theorem getElem?_rekey_self (hx : s[x]? = some (.used next k v)) (key : K) :
    (s.rekey x key)[x]? = some (.used next key v) := by
  have hlt : x < s.size := (Array.getElem?_eq_some_iff.mp hx).1
  rw [rekey, hx]
  exact Array.getElem?_setIfInBounds_self_of_lt hlt

theorem getElem?_rekey_of_ne (hix : i ≠ x) (key : K) : (s.rekey x key)[i]? = s[i]? := by
  rw [rekey]
  split
  · exact Array.getElem?_setIfInBounds_ne (Ne.symm hix)
  · rfl

theorem size_rekey (s : SlotArray w K V) (x : Nat) (key : K) : (s.rekey x key).size = s.size := by
  rw [rekey]
  split
  · exact Array.size_setIfInBounds
  · rfl

/-- A search for `key` that is at slot `i` compares the keys in the slots of the path, and ends with
the last of them. -/
inductive Compares (s : SlotArray w K V) (key : K) : Nat → List Nat → Bool → Prop where
  | hit {i : Nat} {next : Link w} {v : V} (get : s[i]? = some (.used next key v)) :
      Compares s key i [i] true
  | last {i : Nat} {k : K} {v : V} (get : s[i]? = some (.used .null k v)) (ne : k ≠ key) :
      Compares s key i [i] false
  | step {i j : Nat} {next : Link w} {k : K} {v : V} {path : List Nat} {found : Bool}
      (get : s[i]? = some (.used next k v)) (ne : k ≠ key) (link : next.decodeIndex = .ok j)
      (ne_zero : j ≠ 0) (rest : Compares s key j path found) : Compares s key i (i :: path) found

section Search

variable [DecidableEq K] {dangling : Fault} {steps : Nat} {before path a b : List Nat}
  {found : Bool} {r : Trail}

/-- What a search leaves behind are the slots whose keys it has compared. -/
theorem compares_of_search (h : s.search key dangling steps before i = .ok r) :
    ∃ path, s.Compares key i path r.found ∧ r.last :: r.before = path.reverse ++ before ∧
      path.length ≤ steps := by
  induction steps generalizing before i with
  | zero => cases h
  | succ steps ih =>
    rw [search] at h
    split at h
    · cases h
    · cases h
    · rename_i next k v hs
      split at h
      · rename_i hk
        cases h
        exact ⟨[i], .hit (hk ▸ hs), rfl, Nat.succ_le_succ (Nat.zero_le _)⟩
      · rename_i hk
        split at h
        · rename_i hnull
          cases h
          exact ⟨[i], .last (hnull ▸ hs) hk, rfl, Nat.succ_le_succ (Nat.zero_le _)⟩
        · rename_i hnull
          split at h
          · rename_i j hj
            obtain ⟨path, hpath, hr, hlen⟩ := ih h
            have hj0 : j ≠ 0 := fun hj0 => hnull (Link.eq_null_of_decodeIndex (hj0 ▸ hj))
            refine ⟨i :: path, .step hs hk hj hj0 hpath, ?_, Nat.succ_le_succ hlen⟩
            rw [hr, List.reverse_cons, List.append_assoc]
            rfl
          · cases h

/-- A search that has the steps for it compares the keys of a path. -/
theorem Compares.search_eq (h : s.Compares key i path found) (hlen : path.length ≤ steps)
    (dangling : Fault) (before : List Nat) : ∃ r, s.search key dangling steps before i = .ok r ∧
      r.found = found ∧ r.last :: r.before = path.reverse ++ before := by
  induction h generalizing steps before with
  | hit hs =>
    obtain ⟨n, rfl⟩ : ∃ n, steps = n + 1 := ⟨steps - 1, by simp at hlen; omega⟩
    exact ⟨_, search_hit hs, rfl, rfl⟩
  | last hs hk =>
    obtain ⟨n, rfl⟩ : ∃ n, steps = n + 1 := ⟨steps - 1, by simp at hlen; omega⟩
    exact ⟨_, search_end hs hk, rfl, rfl⟩
  | @step i j next k v path found hs hk hj hj0 _ ih =>
    rw [List.length_cons] at hlen
    obtain ⟨n, rfl⟩ : ∃ n, steps = n + 1 := ⟨steps - 1, by omega⟩
    have hlen' : path.length ≤ n := by omega
    obtain ⟨r, hsearch, hfound, hr⟩ := ih hlen' (i :: before)
    refine ⟨r, (search_step hs hk hj hj0).trans hsearch, hfound, ?_⟩
    rw [hr, List.reverse_cons, List.append_assoc]
    rfl

omit [DecidableEq K] in
theorem Compares.exists_used (h : s.Compares key i path found) :
    ∃ next k v, s[i]? = some (.used next k v) := by
  cases h with
  | hit hs => exact ⟨_, _, _, hs⟩
  | last hs _ => exact ⟨_, _, _, hs⟩
  | step hs _ _ _ _ => exact ⟨_, _, _, hs⟩

omit [DecidableEq K] in
/-- The key in a slot that is not on the path makes no difference. -/
theorem Compares.rekey_of_notMem (h : s.Compares key i path found) (hx : x ∉ path) :
    (s.rekey x key).Compares key i path found := by
  induction h with
  | hit hs =>
    rw [← getElem?_rekey_of_ne (Ne.symm (List.ne_of_not_mem_cons hx)) key] at hs
    exact .hit hs
  | last hs hk =>
    rw [← getElem?_rekey_of_ne (Ne.symm (List.ne_of_not_mem_cons hx)) key] at hs
    exact .last hs hk
  | step hs hk hj hj0 _ ih =>
    rw [← getElem?_rekey_of_ne (Ne.symm (List.ne_of_not_mem_cons hx)) key] at hs
    exact .step hs hk hj hj0 (ih (List.not_mem_of_not_mem_cons hx))

omit [DecidableEq K] in
/-- With the key in a slot of the path, the search ends there. -/
theorem Compares.rekey_of_mem (h : s.Compares key i path found) (hpath : path = a ++ x :: b)
    (ha : x ∉ a) : (s.rekey x key).Compares key i (a ++ [x]) true := by
  induction h generalizing a with
  | hit hs =>
    cases a with
    | nil =>
      cases hpath
      exact .hit (getElem?_rekey_self hs key)
    | cons j a => simp at hpath
  | last hs hk =>
    cases a with
    | nil =>
      cases hpath
      exact .hit (getElem?_rekey_self hs key)
    | cons j a => simp at hpath
  | step hs hk hj hj0 _ ih =>
    cases a with
    | nil =>
      cases hpath
      exact .hit (getElem?_rekey_self hs key)
    | cons i' a =>
      rw [List.cons_append, List.cons.injEq] at hpath
      obtain ⟨rfl, hpath⟩ := hpath
      rw [← getElem?_rekey_of_ne (Ne.symm (List.ne_of_not_mem_cons ha)) key] at hs
      exact .step hs hk hj hj0 (ih hpath (List.not_mem_of_not_mem_cons ha))

end Search

end SlotArray

namespace Table

variable {t : Table w K V} {L : Layout} {key : K} {i : Nat}

/-- The table with another key in the used slot `i`. -/
def rekey (t : Table w K V) (i : Nat) (key : K) : Table w K V :=
  { t with slots := t.slots.rekey i key }

/-- The slots that a lookup reads. -/
inductive Reads (t : Table w K V) (key : K) : List Nat → Prop where
  /-- The key is stored: the members of its chain, up to the slot that holds it. -/
  | stored {a b : List Nat} {i : Nat} (holds : t.KeyAt key i)
      (chain : t.IsHomeChain (t.home key) (a ++ i :: b)) : Reads t key (a ++ [i])
  /-- The key is not stored, and its home slot is free. -/
  | none {prev next : Link w} (absent : ¬ t.Has key)
      (home : t.slots[t.home key]? = some (.free prev next)) : Reads t key []
  /-- The key is not stored, and its home slot is the head of a chain: all of it. -/
  | whole {c : List Nat} (absent : ¬ t.Has key) (home : t.Shared key)
      (chain : t.IsHomeChain (t.home key) c) : Reads t key c
  /-- The key is not stored, and its home slot is lent to another chain: the rest of that one. -/
  | rest {next : Link w} {k : K} {v : V} {a b : List Nat} (absent : ¬ t.Has key)
      (home : t.slots[t.home key]? = some (.used next k v)) (foreign : t.home k ≠ t.home key)
      (chain : t.IsHomeChain (t.home k) (a ++ t.home key :: b)) : Reads t key (t.home key :: b)

/-- What a lookup reads, each slot once, as the table's chains have it. That a used slot is read
shows in the answer that the lookup would give with its key there. -/
structure LooksUp [DecidableEq K] (t : Table w K V) (key : K) (slots : List Nat) : Prop where
  probes_eq : t.probes key = .ok slots
  nodup : slots.Nodup
  reads : t.Reads key slots
  mem_iff : ∀ i, t.slots.isUsed i = true →
    (i ∈ slots ↔ (t.rekey i key).find key = .ok (some i))

variable [DecidableEq K] {dangling : Fault}

theorem trail_free {prev next : Link w} (hs : t.slots[t.home key]? = some (.free prev next)) :
    t.trail key dangling = .ok none := by
  rw [trail, SlotArray.read_eq hs]
  rfl

theorem probes_of_trail {r : Option Trail} (h : t.trail key .keyOfFree = .ok r) :
    t.probes key = .ok (r.elim [] Trail.visited) := by
  rw [probes, h]
  cases r <;> rfl

theorem find_of_trail {r : Option Trail} (h : t.trail key .keyOfFree = .ok r) :
    t.find key = .ok (r.bind fun x => if x.found then some x.last else none) := by
  rw [find, h]
  cases r <;> rfl

omit [DecidableEq K] in
theorem visited_eq (before : List Nat) (j : Nat) (found : Bool) :
    (⟨j, before.reverse, found⟩ : Trail).visited = before ++ [j] := by
  rw [Trail.visited, List.reverse_cons, List.reverse_reverse]

/-! ## Which slots are read -/

/-- A lookup on a table in order reads what the chains say. -/
theorem LaidOut.exists_reads (hL : t.LaidOut L) (key : K) :
    ∃ slots, t.probes key = .ok slots ∧ slots.Nodup ∧ t.Reads key slots := by
  have hchain : ∀ {g a i b}, L.chain g = a ++ i :: b →
      t.IsHomeChain g (a ++ i :: b) ∧ (a ++ i :: b).Nodup := fun {g a i b} h =>
    ⟨h ▸ hL.isHomeChain (h ▸ by simp : i ∈ L.chain g), h ▸ hL.chains.nodup g⟩
  rcases hL.home_cases key with ⟨prev, next, hs, -, hnil⟩ | ⟨next, k, v, rest, hs, hk, hrest⟩ |
    ⟨next, k, v, a, p, b, hs, hk, hpb, hnil⟩
  · exact ⟨[], probes_of_trail (trail_free hs), List.nodup_nil,
      .none (hL.absent_of_chain_eq_nil hnil) hs⟩
  · rcases hL.search_spec (a := []) key .keyOfFree hrest with
      ⟨before, j, b, hb, hj, hsearch⟩ | ⟨hne, before, j, hb, hsearch⟩
    · -- what has been read is what is in front of the key on its chain, and its slot
      obtain ⟨hhome, hnodup⟩ := hchain (hrest.trans hb)
      refine ⟨before ++ [j], ?_, ?_, .stored (keyAt_iff.mpr hj) hhome⟩
      · rw [probes_of_trail (trail_eq_some hs hsearch), Option.elim_some, visited_eq]
      · rw [List.append_cons] at hnodup
        exact (List.nodup_append.mp hnodup).1
    · obtain ⟨hhome, hnodup⟩ := hchain (hrest.trans hb)
      have habsent : ¬ t.Has key := hL.absent_of_chain fun i hi => hne i (hrest ▸ hi)
      refine ⟨before ++ [j], ?_, hnodup, .whole habsent ⟨next, k, v, hs, hk⟩ hhome⟩
      rw [probes_of_trail (trail_eq_some hs hsearch), Option.elim_some, visited_eq]
  · have habsent := hL.absent_of_chain_eq_nil hnil
    rw [List.append_cons] at hpb
    obtain ⟨hhome, hnodup⟩ := hchain hpb
    rcases hL.search_spec key .keyOfFree hpb with
      ⟨before, j, b, -, hj, -⟩ | ⟨-, before, j, hb, hsearch⟩
    · exact absurd (has_iff.mpr ⟨j, hj⟩) habsent
    · refine ⟨t.home key :: b, ?_, (List.nodup_append.mp hnodup).2.1, .rest habsent hs hk hhome⟩
      rw [probes_of_trail (trail_eq_some hs hsearch), Option.elim_some, visited_eq, hb]

/-- A lookup starts with a free home slot, or with a search. -/
theorem trail_cases {r : Option Trail} (h : t.trail key dangling = .ok r) :
    (∃ prev next, t.slots[t.home key]? = some (.free prev next) ∧ r = none) ∨
    ∃ x, t.slots.search key dangling t.slots.size [] (t.home key) = .ok x ∧ r = some x := by
  rw [trail, SlotArray.read] at h
  split at h
  · rename_i slot hs
    cases slot with
    | free prev next =>
      change (pure none : Except Fault (Option Trail)) = _ at h
      cases h
      exact .inl ⟨prev, next, hs, rfl⟩
    | used next k v =>
      change t.slots.search key dangling t.slots.size [] (t.home key) >>= (fun x => pure (some x)) =
        _ at h
      obtain ⟨x, hx, hr⟩ := bind_eq_ok_iff.mp h
      cases hr
      exact .inr ⟨x, hx, rfl⟩
  · cases h

/-- A lookup whose search goes along a path answers with the end of it, if the key is there. -/
theorem find_of_compares {path : List Nat} {found : Bool}
    (h : t.slots.Compares key (t.home key) path found) (hlen : path.length ≤ t.slots.size) :
    t.find key = .ok (if found then path.getLast? else none) := by
  obtain ⟨r, hr, hfound, hlast⟩ := h.search_eq hlen .keyOfFree []
  obtain ⟨_, _, _, hs⟩ := h.exists_used
  have hend : path.getLast? = some r.last := by
    rw [← List.head?_reverse, ← List.append_nil path.reverse, ← hlast]
    rfl
  rw [find_of_trail (trail_eq_some hs hr), hend, ← hfound]
  rfl

/-- The slots that a lookup reads are those where the key would be found. -/
theorem mem_probes_iff {slots : List Nat} (hprobes : t.probes key = .ok slots)
    (hnodup : slots.Nodup) (hi : t.slots.isUsed i = true) :
    i ∈ slots ↔ (t.rekey i key).find key = .ok (some i) := by
  obtain ⟨next, k, v, hget⟩ : ∃ next k v, t.slots[i]? = some (.used next k v) := by
    rw [SlotArray.isUsed_eq_isSome, Option.isSome_iff_exists] at hi
    obtain ⟨⟨next, k, v⟩, hnode⟩ := hi
    exact ⟨next, k, v, SlotArray.node_eq_some_iff.mp hnode⟩
  obtain ⟨r, htrail⟩ : ∃ r, t.trail key .keyOfFree = .ok r := by
    rw [probes] at hprobes
    obtain ⟨r, hr, -⟩ := bind_eq_ok_iff.mp hprobes
    exact ⟨r, hr⟩
  rw [probes_of_trail htrail, Except.ok.injEq] at hprobes
  subst hprobes
  rcases trail_cases htrail with ⟨prev, next', hs, rfl⟩ | ⟨x, hx, rfl⟩
  · -- the home slot stays free, so that nothing is found either way
    have hne : t.home key ≠ i := by
      intro h
      rw [h, hget] at hs
      cases hs
    have hs' : (t.rekey i key).slots[(t.rekey i key).home key]? = some (.free prev next') :=
      (SlotArray.getElem?_rekey_of_ne hne key).trans hs
    rw [find_of_trail (trail_free hs')]
    simp
  · obtain ⟨path, hpath, hr, hlen⟩ := SlotArray.compares_of_search hx
    rw [List.append_nil] at hr
    have hvisited : x.visited = path := by rw [Trail.visited, hr, List.reverse_reverse]
    have hsize := SlotArray.size_rekey t.slots i key
    rw [Option.elim_some, hvisited] at hnodup ⊢
    constructor
    · -- among the new keys the path ends in the slot
      intro hmem
      obtain ⟨a, b, rfl⟩ := List.append_of_mem hmem
      have ha : i ∉ a := fun ha => (List.nodup_append.mp hnodup).2.2 i ha i List.mem_cons_self rfl
      have hlen' : (a ++ [i]).length ≤ (t.rekey i key).slots.size := by
        rw [List.length_append, List.length_cons] at hlen
        rw [List.length_append, List.length_singleton]
        exact (by omega : a.length + 1 ≤ t.slots.size).trans_eq hsize.symm
      rw [find_of_compares (hpath.rekey_of_mem rfl ha) hlen', if_pos rfl,
        List.getLast?_append_of_ne_nil _ (List.cons_ne_nil i []), List.getLast?_singleton]
    · -- the path is the same, so that what is found is on it
      intro hfind
      by_contra hmem
      rw [find_of_compares (t := t.rekey i key) (hpath.rekey_of_notMem hmem)
        (hlen.trans_eq hsize.symm), Except.ok.injEq] at hfind
      split at hfind
      · exact hmem (List.mem_of_getLast? hfind)
      · cases hfind

/-- A lookup on a table in order reads each of its slots once, and they are those that the chains
say. -/
theorem LaidOut.exists_looksUp (hL : t.LaidOut L) (key : K) : ∃ slots, t.LooksUp key slots := by
  obtain ⟨slots, hprobes, hnodup, hreads⟩ := hL.exists_reads key
  exact ⟨slots, hprobes, hnodup, hreads, fun i hi => mem_probes_iff hprobes hnodup hi⟩

end Table

end HomeChain
