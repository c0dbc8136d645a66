import HomeChain.Proofs.AgeOrder.Steps
import HomeChain.Proofs.Preservation

/-!
# Keys by age

Along a run of calls the keys can be listed by age (`runByAge`): a new key is the last of the list,
a key that is removed leaves it, and where the capacity changes, the list starts again with the keys
in slot order. Each call leaves the table ordered by the list (`OrderedBy.perform`), so it is by
induction after all of them, whatever was displaced, pulled up and moved to another array in
between.
-/

namespace HomeChain

variable {w : LinkWidth} {K V : Type}

variable [DecidableEq K]

/-- The answer says that the request was declined. -/
def Answer.declined : Answer K V → Bool
  | .map (.declined _) => true
  | _ => false

/-- The keys by age after a call that went from `t` to `t'`. A new key that was stored is the last,
and a key that was removed has left the list. Where the capacity has changed, the list started
again with the keys in slot order. -/
def Call.age (call : Call K V) (answer : Answer K V) (t t' : Table w K V) (age : List K) : List K :=
  let kept := t.agedAs t' age
  match call with
  | .map (.put key _ _) =>
    if answer.declined || key ∈ t.slots.keys then kept else kept ++ [key]
  | .map (.remove key) => kept.erase key
  | .map (.removeAndGet key) => kept.erase key
  | .map .clear => []
  | _ => kept

/-- Makes calls one after another, and lists the keys by age along the way. -/
def runByAge : List (Call K V) → Table w K V → List K → Except Fault (Table w K V × List K)
  | [], t, age => return (t, age)
  | call :: calls, t, age => do
    let (t', answer) ← call.perform t
    runByAge calls t' (call.age answer t t' age)

/-! ## What a call leaves behind -/

namespace Table.OrderedBy

variable {t t' : Table w K V} {L : Layout} {age : List K}

omit [DecidableEq K] in
/-- Where no key comes or goes, the list stays as it is. -/
theorem kept (ho' : t'.OrderedBy L age) (hsame : t'.capacity = t.capacity) :
    ∃ L', t'.OrderedBy L' (t.agedAs t' age) := by
  rw [agedAs_eq hsame]
  exact ⟨L, ho'⟩

/-- Storing a key, and then writing to the slot answered with, puts a new key last. -/
theorem perform_put {key : K} {value : V} {write : Option (V → V)} {answer : MapAnswer V}
    (ho : t.OrderedBy L age) (hcap : t.capacity ≤ w.maxCapacity)
    (h : (MapCall.put key value write).perform t = .ok (t', answer)) :
    ∃ L', t'.OrderedBy L' ((Call.map (.put key value write)).age (.map answer) t t' age) := by
  unfold MapCall.perform at h
  obtain ⟨⟨u, r⟩, hput, h⟩ := bind_eq_ok_iff.mp h
  obtain ⟨x, hx, -, hspec⟩ := ho.laidOut.put_spec hcap key value
  rw [hput, Except.ok.injEq] at hx
  subst hx
  cases r with
  | error e =>
    cases h
    obtain rfl : t' = t := hspec.eq_of_error rfl
    rw [Call.age, agedAs_eq rfl]
    exact ⟨L, ho⟩
  | ok i =>
    -- what is written to the slot answered with changes no key
    obtain ⟨s, v, rfl, hshape, rfl⟩ : ∃ s v, t' = { u with slots := s } ∧ u.slots.SameShape s ∧
        answer = .value v := by
      cases write with
      | none =>
        obtain ⟨u', hu', h⟩ := bind_eq_ok_iff.mp h
        obtain ⟨v, -, h⟩ := bind_eq_ok_iff.mp h
        cases hu'
        cases h
        exact ⟨_, some v, rfl, .refl _, rfl⟩
      | some f =>
        obtain ⟨u', hu', h⟩ := bind_eq_ok_iff.mp h
        obtain ⟨v, -, h⟩ := bind_eq_ok_iff.mp h
        cases h
        obtain ⟨s, hs, hshape⟩ := updateAt_sameShape hspec.entry_eq hu'
        exact ⟨s, some v, hs, hshape, rfl⟩
    have hsame : Call.age (.map (.put key value write)) (.map (.value v)) t
        { u with slots := s } age =
      if key ∈ t.slots.keys then t.agedAs u age else t.agedAs u age ++ [key] := by
      simp only [Call.age, Answer.declined, Bool.false_or, decide_eq_true_eq]
      rfl
    rw [hsame]
    by_cases hhas : t.Has key
    · obtain ⟨hcapu, hou⟩ := ho.put_stored hhas hput
      rw [if_pos (ho.laidOut.mem_keys_iff.mpr hhas), agedAs_eq hcapu]
      exact ⟨L, hou.sameShape hshape⟩
    · obtain ⟨L', hou⟩ := ho.put_new hcap hhas hput
      rw [if_neg fun hkey => hhas (ho.laidOut.mem_keys_iff.mp hkey)]
      exact ⟨L', hou.sameShape hshape⟩

/-- A call of an operation of a map leaves the chains in order of age. -/
theorem perform_map {call : MapCall K V} {answer : MapAnswer V} (ho : t.OrderedBy L age)
    (hcap : t.capacity ≤ w.maxCapacity) (h : call.perform t = .ok (t', answer)) :
    ∃ L', t'.OrderedBy L' ((Call.map call).age (.map answer) t t' age) := by
  unfold MapCall.perform at h
  cases call with
  | put key value write => exact ho.perform_put hcap h
  | get key =>
    obtain ⟨x, -, h⟩ := bind_eq_ok_iff.mp h
    cases h
    exact ho.kept rfl
  | contains key =>
    obtain ⟨x, -, h⟩ := bind_eq_ok_iff.mp h
    cases h
    exact ho.kept rfl
  | modify key write =>
    obtain ⟨⟨u, x⟩, hmodify, h⟩ := bind_eq_ok_iff.mp h
    cases h
    obtain ⟨hsame, ho'⟩ := ho.modify hmodify
    exact ho'.kept hsame
  | remove key =>
    obtain ⟨⟨u, x⟩, hremove, h⟩ := bind_eq_ok_iff.mp h
    cases h
    obtain ⟨hsame, ho'⟩ := ho.remove hcap hremove
    rw [Call.age, agedAs_eq hsame]
    exact ho'
  | removeAndGet key =>
    obtain ⟨⟨u, x⟩, hremove, h⟩ := bind_eq_ok_iff.mp h
    cases h
    obtain ⟨hsame, ho'⟩ := ho.removeAndGet hcap hremove
    rw [Call.age, agedAs_eq hsame]
    exact ho'
  | clear =>
    obtain ⟨u, hclear, h⟩ := bind_eq_ok_iff.mp h
    cases h
    exact ho.clear hcap hclear
  | rehash count =>
    obtain ⟨⟨u, r⟩, hrehash, h⟩ := bind_eq_ok_iff.mp h
    have hu : u = t' := by
      cases r with
      | error e =>
        cases h
        rfl
      | ok c =>
        cases h
        rfl
    exact ho.rehash hcap (hu ▸ hrehash)
  | len =>
    cases h
    exact ho.kept rfl
  | isEmpty =>
    cases h
    exact ho.kept rfl
  | capacity =>
    cases h
    exact ho.kept rfl

/-- A call leaves the chains in order of age. -/
theorem perform {call : Call K V} {answer : Answer K V} (ho : t.OrderedBy L age)
    (hcap : t.capacity ≤ w.maxCapacity) (h : call.perform t = .ok (t', answer)) :
    ∃ L', t'.OrderedBy L' (call.age answer t t' age) := by
  unfold Call.perform at h
  cases call with
  | map call =>
    obtain ⟨⟨u, a⟩, hcall, h⟩ := bind_eq_ok_iff.mp h
    cases h
    exact ho.perform_map hcap hcall
  | iterate asks =>
    cases h
    exact ho.kept rfl
  | visit limit write =>
    obtain ⟨s, hs, hshape⟩ := visitFrom_spec write (limit.getD t.slots.size) ⟨#[], t.start, t⟩
    have hvisit : (t.visit limit write).table = { t with slots := s } := hs
    dsimp only at h
    rw [hvisit] at h
    cases h
    exact (ho.sameShape hshape).kept rfl
  | check =>
    obtain ⟨x, -, h⟩ := bind_eq_ok_iff.mp h
    cases h
    exact ho.kept rfl
  | chainStats =>
    obtain ⟨x, -, h⟩ := bind_eq_ok_iff.mp h
    cases h
    exact ho.kept rfl

/-- Calls, one after another, leave the chains in order of age. -/
theorem runByAge (ho : t.OrderedBy L age) (ht : t.Consistent) (calls : List (Call K V)) :
    ∃ t' answers age' L', run Call.perform calls t = .ok (t', answers) ∧
      HomeChain.runByAge calls t age = .ok (t', age') ∧ t'.OrderedBy L' age' := by
  induction calls generalizing t L age with
  | nil => exact ⟨t, [], age, L, rfl, rfl, ho⟩
  | cons call calls ih =>
    obtain ⟨t₁, answer, hcall, ht₁, -⟩ := Call.perform_consistent ht call
    obtain ⟨L₁, ho₁⟩ := ho.perform ht.capacity_le hcall
    obtain ⟨t', answers, age', L', hrun, hage, ho'⟩ := ih ho₁ ht₁
    refine ⟨t', answer :: answers, age', L', ?_, ?_, ho'⟩
    · rw [run, hcall, ok_bind]
      dsimp only
      rw [hrun]
      rfl
    · rw [HomeChain.runByAge, hcall, ok_bind]
      exact hage

end Table.OrderedBy

/-! ## Chains by age -/

/-- The keys stored are those of `age`, each of them once. Along the chain that starts in slot `h`,
if one does, are those with home address `h`, in the order of `age`; otherwise there are none. -/
structure Table.ChainsByAge (t : Table w K V) (age : List K) : Prop where
  nodup : age.Nodup
  mem_iff : ∀ k, k ∈ age ↔ t.Has k
  chain : ∀ h next k v, t.slots[h]? = some (.used next k v) → t.home k = h →
    ∃ c, t.IsHomeChain h c ∧
      c.map t.slots.node.key = (age.filter fun k => t.home k = h).map some
  absent : ∀ h, (∀ next k v, t.slots[h]? = some (.used next k v) → t.home k ≠ h) →
    ∀ k, t.Has k → t.home k ≠ h

omit [DecidableEq K] in
theorem Table.OrderedBy.chainsByAge {t : Table w K V} {L : Layout} {age : List K}
    (ho : t.OrderedBy L age) : t.ChainsByAge age where
  nodup := ho.nodup
  mem_iff k := ho.mem_iff
  chain h next k v hs hk := by
    have hmem : h ∈ L.chain h := ho.laidOut.mem_chain_iff.mpr ⟨next, k, v, hs, hk⟩
    exact ⟨L.chain h, ho.laidOut.isHomeChain hmem, ho.keys_eq h⟩
  absent h hlent k hhas hk := by
    obtain ⟨i, hi⟩ := Table.has_iff.mp hhas
    have hmem : i ∈ L.chain h := hk ▸ ho.laidOut.chains.mem_of_key hi
    -- the chain starts in its home slot
    obtain ⟨rest, hrest⟩ := ho.laidOut.chains.eq_cons hmem
    obtain ⟨next, k', v, hs, hk'⟩ :=
      ho.laidOut.mem_chain_iff.mp (hrest ▸ List.mem_cons_self : h ∈ L.chain h)
    exact hlent next k' v hs hk'

omit [DecidableEq K] in
/-- A table that is built is new. -/
theorem Start.build_isNew {start : Start} {policy : Policy} {hash : K → UInt64} {t : Table w K V}
    (h : start.build policy hash = .ok (.ok t)) : ∃ c, t.IsNew policy hash c := by
  cases start with
  | new =>
    obtain ⟨u, hu, hnew⟩ := Table.new_spec (w := w) (V := V) policy hash
    rw [build, hu] at h
    cases h
    exact ⟨1, hnew⟩
  | withCapacity count =>
    rcases Table.withCapacity_spec (w := w) (V := V) policy hash count with
      ⟨-, u, hu, hnew⟩ | ⟨-, hu⟩
    · rw [build, hu] at h
      cases h
      exact ⟨_, hnew⟩
    · rw [build, hu] at h
      cases h

/-- Whatever calls are made on a table that was built, the chains of the table they end with have
their keys in order of age. -/
theorem chains_by_age {start : Start} {policy : Policy} {hash : K → UInt64} {t : Table w K V}
    (hbuild : start.build policy hash = .ok (.ok t)) (calls : List (Call K V)) :
    ∃ t' answers age, run Call.perform calls t = .ok (t', answers) ∧
      runByAge calls t [] = .ok (t', age) ∧ t'.ChainsByAge age := by
  obtain ⟨c, hnew⟩ := Start.build_isNew hbuild
  obtain ⟨L, ho⟩ := Table.OrderedBy.of_new hnew
  obtain ⟨t', answers, age, L', hrun, hage, ho'⟩ :=
    ho.runByAge (Start.build_consistent hbuild) calls
  exact ⟨t', answers, age, hrun, hage, ho'.chainsByAge⟩

/-- The key `4` is behind `0` on its chain, leaves its slot for `1`, which is at home there, and
comes to the front of the chain when `0` is removed; `8` is behind it all the while. -/
theorem chains_by_age_displaced : ∃ t t' : Table .bits16 Nat Nat,
    (Start.withCapacity 4).build .growable UInt64.ofNat = .ok (.ok t) ∧
    (∃ answers, run Call.perform [.map (.put 0 0 none), .map (.put 4 0 none),
      .map (.put 1 0 none), .map (.put 8 0 none), .map (.remove 0)] t = .ok (t', answers)) ∧
    t'.ChainsByAge [4, 1, 8] := by
  let calls : List (Call Nat Nat) := [.map (.put 0 0 none), .map (.put 4 0 none),
    .map (.put 1 0 none), .map (.put 8 0 none), .map (.remove 0)]
  let t : Table .bits16 Nat Nat := .blank .growable UInt64.ofNat 4
  have hbuild : (Start.withCapacity 4).build .growable UInt64.ofNat = .ok (.ok t) := by cbv
  obtain ⟨t', answers, age, hrun, hage, hchains⟩ := chains_by_age hbuild calls
  have hlist : (runByAge calls t []).map Prod.snd = .ok [4, 1, 8] := by decide +kernel
  rw [hage, Except.map, Except.ok.injEq] at hlist
  exact ⟨t, t', hbuild, ⟨answers, hrun⟩, hlist ▸ hchains⟩

end HomeChain
