import HomeChain.Proofs.Declines

/-!
# What is left of the old slots

A table that is rebuilt is the table that would have been made with the new capacity in the first
place, and to which the entries were given in the order of iteration (`RebuiltAs`): slot by slot,
and link by link. Of the old layout nothing is left but this order. A table that grows for a new key
is rebuilt in the same way before it takes the key, and a second request for a capacity finds
nothing to do.
-/

namespace HomeChain

variable {w : LinkWidth} {K V : Type} [DecidableEq K]

namespace Table

variable {t t' : Table w K V} {L : Layout} {key : K} {count c : Nat}

/-- The table `t'` is a new growable table, made for `c` entries, to which the entries of `t` were
given in the order of iteration. -/
def RebuiltAs (t t' : Table w K V) (c : Nat) : Prop :=
  ∃ fresh, (withCapacity .growable t.hash c).outcome = .ok (.ok fresh) ∧
    Fills (t.yielded t.len) fresh t'

omit [DecidableEq K] in
/-- A power of two is its own least capacity. -/
theorem withCapacity_pow (policy : Policy) (hash : K → UInt64) {e : Nat} (hpow : c = 2 ^ e)
    (hcap : c ≤ w.maxCapacity) :
    (withCapacity policy hash c : Traced (Except TableError (Table w K V))).outcome =
      .ok (.ok (blank policy hash c)) := by
  have hclog : 2 ^ Nat.clog 2 c = c := by rw [hpow, Nat.clog_pow 2 e (by decide)]
  rw [withCapacity_outcome, hclog, if_pos hcap]

namespace LaidOut

omit [DecidableEq K] in
theorem yielded_eq (hL : t.LaidOut L) : t.yielded t.len = t.slots.entriesFrom 1 := by
  rw [t.yielded_eq_entries le_rfl, entries_eq hL.len_eq_usedCount, SlotArray.entriesFrom]

theorem rebuiltAs (hL : t.LaidOut L) (hgrowable : t.policy = .growable) {e : Nat}
    (hpow : c = 2 ^ e) (hcap : c ≤ w.maxCapacity)
    (hfills : Fills (t.slots.entriesFrom 1) (blank t.policy t.hash c) t') : t.RebuiltAs t' c := by
  refine ⟨_, withCapacity_pow .growable t.hash hpow hcap, ?_⟩
  rw [hL.yielded_eq, ← hgrowable]
  exact hfills

/-- A rebuilding that is not declined gives the least capacity for the count. The table has been
rebuilt, or is as it was; a second request leaves it as it is. -/
theorem rehash_ok (hL : t.LaidOut L) (hcap : t.capacity ≤ w.maxCapacity)
    (h : (t.rehash count).outcome = .ok (t', .ok c)) :
    IsLeastCapacity count c ∧ t'.capacity = c ∧ (c = t.capacity → t' = t) ∧
      (c ≠ t.capacity → t.RebuiltAs t' c) ∧ (t'.rehash count).outcome = .ok (t', .ok c) := by
  obtain ⟨r, hr, hspec⟩ := hL.rehash_spec count
  rw [h, Except.ok.injEq] at hr
  subst hr
  cases hspec with
  | rebuilt hgrowable hlen hle hderived =>
    have hsame : t'.capacity = 2 ^ Nat.clog 2 count := hderived.capacity_eq
    refine ⟨isLeastCapacity_iff.mpr rfl, hsame, fun heq => ?_, fun hne => ?_, ?_⟩
    · have hkept := rehash_same hgrowable hlen hcap heq
      rw [h, Except.ok.injEq, Prod.mk.injEq] at hkept
      exact hkept.1
    · obtain ⟨u, hu, hfills, -⟩ := hL.rehash_rebuilt hgrowable hlen hle hne
      rw [h, Except.ok.injEq, Prod.mk.injEq] at hu
      exact hL.rebuiltAs hgrowable rfl hle (hu.1 ▸ hfills)
    · -- the table has the capacity now that the count asks for, and as many entries as before
      rw [← hsame]
      apply rehash_same (hderived.policy_eq.trans hgrowable) _ (hsame ▸ hle) hsame.symm
      rw [hderived.len_eq]
      exact hlen

end LaidOut

/-- On a growable table that passes an examination, a request for another capacity that is not
declined comes to the least capacity for the count: the table is rebuilt as one that was made with
this capacity, or it has it already and stays as it is; and the same request changes nothing when it
is made again. A full table that can double its capacity is rebuilt as one that was made with twice
the capacity, for a new key, and then takes the key. -/
theorem rebuilt_canonically (t : Table w K V) (hcheck : t.check.outcome = .ok (.ok ()))
    (hcap : t.capacity ≤ w.maxCapacity) (hgrowable : t.policy = .growable) :
    (∀ count, ∃ t' r, (t.rehash count).outcome = .ok (t', r) ∧ ∀ c, r = .ok c →
      IsLeastCapacity count c ∧ t'.capacity = c ∧ (c = t.capacity → t' = t) ∧
        (c ≠ t.capacity → t.RebuiltAs t' c) ∧ (t'.rehash count).outcome = .ok (t', .ok c)) ∧
    (∀ key value, ¬ t.Has key → t.len = t.capacity → 2 * t.capacity ≤ w.maxCapacity →
      ∃ t₁ t' i, t.RebuiltAs t₁ (2 * t.capacity) ∧ t₁.capacity = 2 * t.capacity ∧
        (t₁.put key value).outcome = .ok (t', .ok i) ∧
        (t.put key value).outcome = .ok (t', .ok i)) := by
  obtain ⟨L, hL⟩ := inOrder_iff.mp (check_eq_ok_iff.mp hcheck)
  constructor
  · intro count
    obtain ⟨⟨t', r⟩, hr, -⟩ := hL.rehash_spec count
    refine ⟨t', r, hr, fun c hc => ?_⟩
    exact hL.rehash_ok hcap (hc ▸ hr)
  · intro key value hnew hfull hle
    obtain ⟨e, hpow⟩ := hL.two_mul_capacity_pow
    obtain ⟨t₁, i, t', hfills, hcap₁, -, hput⟩ := hL.put_grown hnew hfull hgrowable hle value
    exact ⟨t₁, t', i, hL.rebuiltAs hgrowable hpow hle hfills, hcap₁, hput⟩

/-- A full table with one chain of two entries, which is rebuilt for three entries, and which grows
for a third one. -/
theorem rebuilt_canonically_two_entries : ∃ t t₁ t₂ t₃ : Table .bits16 Nat Nat,
    t.check.outcome = .ok (.ok ()) ∧ t.yielded t.len = [(5, 50), (6, 60)] ∧
    (t.rehash 3).outcome = .ok (t₁, .ok 4) ∧ t.RebuiltAs t₁ 4 ∧
    t.RebuiltAs t₂ 4 ∧ ∃ i, (t₂.put 7 70).outcome = .ok (t₃, .ok i) ∧
      (t.put 7 70).outcome = .ok (t₃, .ok i) := by
  let t : Table .bits16 Nat Nat := ⟨.growable, fun _ => 0,
    #[.free .null (.ofSuccessor 0), .used (.ofIndex 2) 5 50, .used .null 6 60], 2, 1⟩
  have hcheck : t.check.outcome = .ok (.ok ()) := by cbv
  have hcap : t.capacity ≤ LinkWidth.bits16.maxCapacity := by decide
  have hnew : ¬ t.Has 7 := by
    rw [has_iff]
    rintro ⟨_ | _ | _ | i, hi⟩ <;> cases hi
  obtain ⟨hrehash, hput⟩ := rebuilt_canonically t hcheck hcap rfl
  obtain ⟨t₁, r, hr, hrebuilt⟩ := hrehash 3
  have hr4 : (t.rehash 3).outcome.map Prod.snd = .ok (.ok 4) := by decide +kernel
  rw [hr, Except.map, Except.ok.injEq] at hr4
  obtain ⟨-, -, -, hrebuilt, -⟩ := hrebuilt 4 hr4
  obtain ⟨t₂, t₃, i, hrebuilt₂, -, hput₂, hput⟩ := hput 7 70 hnew rfl (by decide)
  exact ⟨t, t₁, t₂, t₃, hcheck, rfl, hr4 ▸ hr, hrebuilt (by decide), hrebuilt₂, i, hput₂, hput⟩

end Table

end HomeChain
