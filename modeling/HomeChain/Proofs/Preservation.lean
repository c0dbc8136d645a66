import HomeChain.Proofs.Examination.Verdict
import HomeChain.Proofs.Refinement
import HomeChain.Proofs.Visiting

/-!
# Consistency is kept

Every table that is built is consistent, and every call on a consistent table ends with a
consistent table of the same policy and hash. By induction, so does every run of calls. Since a
call ends at all, no run of calls on a table that was built meets a fault.
-/

namespace HomeChain

variable {w : LinkWidth} {K V : Type} [DecidableEq K] {t : Table w K V}

/-- A call on a consistent table ends with a consistent table. -/
theorem Call.perform_consistent (ht : t.Consistent) (call : Call K V) :
    ∃ t' answer, call.perform t = .ok (t', answer) ∧ t'.Consistent ∧ t'.policy = t.policy ∧
      t'.hash = t.hash := by
  obtain ⟨L, hL⟩ := ht.exists_laidOut
  unfold perform
  cases call with
  -- for these calls it follows from what the table represents
  | map call =>
    obtain ⟨m, hm⟩ := ht.exists_represents
    obtain ⟨t', ht', hreach⟩ := hm.perform_spec call
    dsimp only
    rw [ht']
    exact ⟨t', _, rfl, hreach.represents.consistent, hreach.policy_eq, hreach.hash_eq⟩
  | iterate asks => exact ⟨t, _, rfl, ht, rfl, rfl⟩
  | visit limit write =>
    obtain ⟨s', hs', hL'⟩ := hL.visit_spec limit write
    dsimp only
    rw [hs']
    exact ⟨_, _, rfl, Table.consistent_iff.mpr ⟨hL'.inOrder, ht.capacity_le⟩, rfl, rfl⟩
  | check =>
    obtain ⟨v, hv, -⟩ := t.check_verdict
    dsimp only
    rw [hv]
    exact ⟨t, _, rfl, ht, rfl, rfl⟩
  | chainStats =>
    dsimp only
    rw [hL.chainStats_eq]
    exact ⟨t, _, rfl, ht, rfl, rfl⟩

/-- A run of calls on a consistent table ends with a consistent table. -/
theorem run_consistent (ht : t.Consistent) (calls : List (Call K V)) :
    ∃ t' answers, run Call.perform calls t = .ok (t', answers) ∧ t'.Consistent := by
  induction calls generalizing t with
  | nil => exact ⟨t, [], rfl, ht⟩
  | cons call calls ih =>
    obtain ⟨t₁, answer, ht₁, hconsistent, -⟩ := Call.perform_consistent ht call
    obtain ⟨t', answers, ht', hconsistent'⟩ := ih hconsistent
    refine ⟨t', answer :: answers, ?_, hconsistent'⟩
    rw [run, ht₁, ok_bind]
    dsimp only
    rw [ht']
    rfl

/-- Every table that is built is consistent. -/
theorem Start.build_consistent {start : Start} {policy : Policy} {hash : K → UInt64}
    (h : start.build policy hash = .ok (.ok t)) : t.Consistent := by
  rcases start.build_spec (w := w) (V := V) policy hash with ⟨e, -, he⟩ | ⟨m, t', -, ht', hrep, -⟩
  · rw [he] at h
    cases h
  · rw [ht', Except.ok.injEq, Except.ok.injEq] at h
    exact h ▸ hrep.consistent

/-- The tables that are built are consistent. A call on any consistent table ends without a fault
and with a consistent table, and so does any run of calls. -/
theorem consistency_kept :
    (∀ (start : Start) (policy : Policy) (hash : K → UInt64) (t : Table w K V),
      start.build policy hash = .ok (.ok t) → t.Consistent) ∧
    (∀ t : Table w K V, t.Consistent → ∀ call : Call K V,
      ∃ t' answer, call.perform t = .ok (t', answer) ∧ t'.Consistent) ∧
    (∀ t : Table w K V, t.Consistent → ∀ calls : List (Call K V),
      ∃ t' answers, run Call.perform calls t = .ok (t', answers) ∧ t'.Consistent) := by
  refine ⟨fun start policy hash t h => Start.build_consistent h, fun t ht call => ?_,
    fun t ht calls => run_consistent ht calls⟩
  obtain ⟨t', answer, h, hconsistent, -⟩ := Call.perform_consistent ht call
  exact ⟨t', answer, h, hconsistent⟩

/-- The keys `0` and `4` form a chain, and `4` is in the home slot of `1`, so that storing `1`
displaces it. The calls that follow remove the head of the chain, fill the table, make it grow and
empty it. -/
theorem consistency_kept_lent_home : ∃ built t : Table .bits16 Nat Nat,
    Start.new.build .growable UInt64.ofNat = .ok (.ok built) ∧ built.Consistent ∧
    t.Consistent ∧ t.slots[t.home 1]? = some (.used .null 4 40) ∧ t.home 4 = t.home 0 ∧
    (∃ t' answer, (Call.map (.put 1 10 none)).perform t = .ok (t', answer) ∧ t'.Consistent) ∧
    ∃ t' answers, run Call.perform [.map (.put 1 10 none), .map (.remove 0), .map (.put 2 20 none),
        .map (.put 3 30 none), .map (.put 7 70 none), .map .clear] t = .ok (t', answers) ∧
      t'.Consistent := by
  let t : Table .bits16 Nat Nat :=
    ⟨.growable, UInt64.ofNat, #[.free (.ofIndex 4) (.ofSuccessor 3), .used (.ofIndex 2) 0 0,
      .used .null 4 40, .free .null (.ofSuccessor 4), .free (.ofIndex 3) (.ofSuccessor 0)], 2, 3⟩
  have hcheck : t.check.outcome = .ok (.ok ()) := by cbv
  have ht : t.Consistent := Table.consistent_iff.mpr ⟨Table.check_eq_ok_iff.mp hcheck, by decide⟩
  obtain ⟨hbuild, hcall, hrun⟩ := consistency_kept (w := .bits16) (K := Nat) (V := Nat)
  exact ⟨_, t, rfl, hbuild .new .growable UInt64.ofNat _ rfl, ht, by cbv, by decide, hcall t ht _,
    hrun t ht _⟩

/-- A session meets no fault, whatever its calls are. In the table it ends with, a key is stored
within two attempts. -/
theorem session_without_fault (start : Start) (policy : Policy) (hash : K → UInt64)
    (calls : List (Call K V)) :
    ∃ r, session (w := w) Call.perform policy hash start calls = .ok r ∧
      ∀ t answers, r = .ok (t, answers) → ∀ key value, ∃ stored,
        (t.put key value).outcome = .ok stored ∧
          (Table.putWithin key value 2 t).outcome = .ok stored := by
  unfold session
  -- the table built is consistent, and stays so along the calls
  rcases start.build_spec (w := w) (V := V) policy hash with
    ⟨e, -, hbuild⟩ | ⟨m, t, -, hbuild, hrep, -⟩
  · rw [hbuild]
    refine ⟨.error e, rfl, fun t answers h => ?_⟩
    cases h
  · obtain ⟨t', answers, ht', hconsistent⟩ := run_consistent hrep.consistent calls
    rw [hbuild, ok_bind]
    dsimp only
    rw [ht']
    refine ⟨.ok (t', answers), rfl, fun u as h key value => ?_⟩
    cases h
    obtain ⟨L, hL⟩ := hconsistent.exists_laidOut
    obtain ⟨stored, hput, htwo, -⟩ := hL.put_spec hconsistent.capacity_le key value
    exact ⟨stored, hput, htwo⟩

/-- Two keys with one home address are stored, and a third one makes the table grow. -/
theorem session_without_fault_two_keys : ∃ t answers,
    session (w := .bits16) Call.perform .growable (fun _ : Nat => 0) .new
      [.map (.put 1 2 none), .map (.put 3 4 none)] = .ok (.ok (t, answers)) ∧
    ∃ stored, (t.put 5 6).outcome = .ok stored ∧
      (Table.putWithin 5 6 2 t).outcome = .ok stored := by
  obtain ⟨r, hr, hput⟩ := session_without_fault (w := .bits16) .new .growable (fun _ : Nat => 0)
    [.map (.put 1 2 none), .map (.put 3 4 none)]
  have hbuilt : (session (w := .bits16) Call.perform .growable (fun _ : Nat => 0) .new
      [.map (.put 1 2 none), .map (.put 3 4 none)]).toOption.bind Except.toOption ≠ none := by
    unfold session
    cbv
    exact Option.some_ne_none _
  cases r with
  | error e =>
    rw [hr] at hbuilt
    exact absurd rfl hbuilt
  | ok reached => exact ⟨_, _, hr, hput _ _ rfl 5 6⟩

end HomeChain
