import HomeChain.Proofs.Preservation
import HomeChain.Proofs.Widths.Operations

/-!
# The width of links does not show

Two tables that are alike, whatever the widths of their links, answer a call alike and are alike
after it, unless the capacity that the call needs is one that links of either width cannot serve.
So two sessions with the same calls stay in step up to the first such call, from a start that both
widths can serve.
-/

namespace HomeChain

variable {w w' : LinkWidth} {K V : Type}

/-- The answer is that links cannot serve a capacity. -/
def MapAnswer.TooLarge : MapAnswer V → Prop
  | declined e => e.TooLarge
  | _ => False

/-- The answer is that links cannot serve a capacity. -/
def Answer.TooLarge : Answer K V → Prop
  | map answer => answer.TooLarge
  | _ => False

variable [DecidableEq K] {t : Table w K V} {t' : Table w' K V}

/-- The two tables give the same answers to the calls, and are alike after every one of them, up to
the first call to which one of the tables answers that its links cannot serve a capacity. -/
inductive InStep : List (Call K V) → Table w K V → Table w' K V → Prop where
  | done (t : Table w K V) (t' : Table w' K V) : InStep [] t t'
  | answered {call : Call K V} {calls : List (Call K V)} {t u : Table w K V} {t' u' : Table w' K V}
      {a : Answer K V} (left : call.perform t = .ok (u, a)) (right : call.perform t' = .ok (u', a))
      (alike : u.Alike u') (rest : InStep calls u u') : InStep (call :: calls) t t'
  | tooLarge {call : Call K V} {calls : List (Call K V)} {t u : Table w K V} {t' u' : Table w' K V}
      {a a' : Answer K V} (left : call.perform t = .ok (u, a))
      (right : call.perform t' = .ok (u', a')) (large : a.TooLarge ∨ a'.TooLarge) :
      InStep (call :: calls) t t'

/-! ## Calls -/

/-- On a consistent table, two attempts are as many as it takes to store a key. -/
theorem Table.Consistent.put_outcome_eq (ht : t.Consistent) (key : K) (value : V) :
    (t.put key value).outcome = (Table.putWithin key value 2 t).outcome := by
  obtain ⟨L, hL⟩ := ht.exists_laidOut
  obtain ⟨r, hr, htwo, -⟩ := hL.put_spec ht.capacity_le key value
  rw [hr, htwo]

namespace Table.Alike

theorem perform_put (h : t.Alike t') (ht : t.Consistent) (ht' : t'.Consistent) (key : K) (value : V)
    (write : Option (V → V)) :
    Agree (AlikeUnless MapAnswer.TooLarge) ((MapCall.put key value write).perform t)
      ((MapCall.put key value write).perform t') := by
  unfold MapCall.perform
  dsimp only
  rw [ht.put_outcome_eq, ht'.put_outcome_eq]
  refine AlikeUnless.bind (h.putWithin key value 2) ?_ fun u u' r hu => ?_
  · rintro _ ⟨e, rfl, he⟩
    exact ⟨fun u => ⟨_, rfl, he⟩, fun u => ⟨_, rfl, he⟩⟩
  · cases r with
    | error e => exact .ok (.of_alike hu _)
    | ok i =>
      have hanswer : ∀ {v : Table w K V} {v' : Table w' K V}, v.Alike v' →
          Agree (AlikeUnless MapAnswer.TooLarge)
            (do return (v, .value (some (← v.valueAt i))))
            (do return (v', .value (some (← v'.valueAt i)))) := fun hv =>
        (hv.slots.value i).bind_eq fun x => .ok (.of_alike hv _)
      cases write with
      | none => exact hanswer hu
      | some f => exact (hu.updateAt i f).bind fun v v' hv => hanswer hv

/-- A call of an operation of a map. -/
theorem perform_map (h : t.Alike t') (ht : t.Consistent) (ht' : t'.Consistent)
    (call : MapCall K V) :
    Agree (AlikeUnless MapAnswer.TooLarge) (call.perform t) (call.perform t') := by
  cases call with
  | put key value write => exact h.perform_put ht ht' key value write
  | get key => exact (h.get key).bind_eq fun v => .ok (.of_alike h _)
  | contains key => exact (h.contains key).bind_eq fun b => .ok (.of_alike h _)
  | modify key write =>
    exact AlikeWith.bind (h.modify key write) fun u u' v hu => .ok (.of_alike hu _)
  | remove key =>
    exact AlikeWith.bind (h.remove key) fun u u' v hu => .ok (.of_alike hu _)
  | removeAndGet key =>
    exact AlikeWith.bind (h.removeAndGet key) fun u u' v hu => .ok (.of_alike hu _)
  | clear => exact h.clear.bind fun u u' hu => .ok (.of_alike hu _)
  | rehash count =>
    refine AlikeUnless.bind (h.rehash count) ?_ fun u u' r hu => ?_
    · rintro _ ⟨e, rfl, he⟩
      exact ⟨fun u => ⟨_, rfl, he⟩, fun u => ⟨_, rfl, he⟩⟩
    · cases r with
      | ok n => exact .ok (.of_alike hu _)
      | error e => exact .ok (.of_alike hu _)
  | len => exact .ok (.inr (.inr ⟨h, by rw [h.len_eq]⟩))
  | isEmpty => exact .ok (.inr (.inr ⟨h, by rw [isEmpty, isEmpty, h.len_eq]⟩))
  | capacity => exact .ok (.inr (.inr ⟨h, by rw [h.capacity_eq]⟩))

/-- A call of any operation. -/
theorem perform (h : t.Alike t') (ht : t.Consistent) (ht' : t'.Consistent) (call : Call K V) :
    Agree (AlikeUnless Answer.TooLarge) (call.perform t) (call.perform t') := by
  cases call with
  | map call =>
    exact AlikeUnless.bind (h.perform_map ht ht' call)
      (fun a ha => ⟨fun u => ⟨_, rfl, ha⟩, fun u => ⟨_, rfl, ha⟩⟩)
      fun u u' a hu => .ok (.of_alike hu _)
  | iterate asks => exact .ok (.inr (.inr ⟨h, by rw [h.steps_eq]⟩))
  | visit limit write =>
    obtain ⟨hseen, htable⟩ := h.visit limit write
    exact .ok (.inr (.inr ⟨htable, by rw [hseen]⟩))
  | check =>
    -- both tables pass
    unfold Call.perform
    rw [check_eq_ok_iff.mpr ht.toInOrder, check_eq_ok_iff.mpr ht'.toInOrder]
    exact .ok (.of_alike h _)
  | chainStats => exact h.chainStats.bind_eq fun stats => .ok (.of_alike h _)

/-- Tables that are alike stay in step, whatever the calls are. -/
theorem inStep (h : t.Alike t') (ht : t.Consistent) (ht' : t'.Consistent)
    (calls : List (Call K V)) : InStep calls t t' := by
  induction calls generalizing t t' with
  | nil => exact .done t t'
  | cons call calls ih =>
    -- neither table meets a fault, so what the calls agree on is what happens
    obtain ⟨u, a, hu, hconsistent, -⟩ := call.perform_consistent ht
    obtain ⟨u', a', hu', hconsistent', -⟩ := call.perform_consistent ht'
    rcases h.perform ht ht' call _ _ hu hu' with hlarge | hlarge | ⟨halike, haa⟩
    · exact .tooLarge hu hu' (.inl hlarge)
    · exact .tooLarge hu hu' (.inr hlarge)
    · obtain rfl : a = a' := haa
      exact .answered hu hu' halike (ih halike hconsistent hconsistent')

end Table.Alike

/-! ## Sessions -/

omit [DecidableEq K] in
/-- The tables built with links of two widths are alike, if links of both can serve them. -/
theorem Start.build_alike (w w' : LinkWidth) (start : Start) (policy : Policy)
    (hash : K → UInt64) : ∃ (r : Except TableError (Table w K V))
      (r' : Except TableError (Table w' K V)),
    start.build policy hash = .ok r ∧ start.build policy hash = .ok r' ∧
      ((∃ e, (r = .error e ∨ r' = .error e) ∧ e.TooLarge) ∨
        ∃ t t', r = .ok t ∧ r' = .ok t' ∧ t.Alike t') := by
  cases start with
  | new =>
    refine ⟨.ok (Table.blank policy hash 1), .ok (Table.blank policy hash 1), ?_, ?_,
      .inr ⟨_, _, rfl, rfl, Table.alike_blank policy hash w.maxCapacity_pos w'.maxCapacity_pos⟩⟩
    · rw [build, Table.new_outcome]
      rfl
    · rw [build, Table.new_outcome]
      rfl
  | withCapacity count =>
    refine ⟨_, _, Table.withCapacity_outcome policy hash count,
      Table.withCapacity_outcome policy hash count, ?_⟩
    by_cases hle : 2 ^ Nat.clog 2 count ≤ w.maxCapacity
    · by_cases hle' : 2 ^ Nat.clog 2 count ≤ w'.maxCapacity
      · rw [if_pos hle, if_pos hle']
        exact .inr ⟨_, _, rfl, rfl, Table.alike_blank policy hash hle hle'⟩
      · rw [if_neg hle']
        exact .inl ⟨_, .inr rfl, trivial⟩
    · rw [if_neg hle]
      exact .inl ⟨_, .inl rfl, trivial⟩

/-- Whatever the policy, the hash and the calls, and however the table is built: with links of any
two widths, no table is built on one side since the capacity is too large, or both tables start
alike and stay in step. -/
theorem widths_in_step (w w' : LinkWidth) (start : Start) (policy : Policy) (hash : K → UInt64)
    (calls : List (Call K V)) : ∃ (r : Except TableError (Table w K V))
      (r' : Except TableError (Table w' K V)),
    start.build policy hash = .ok r ∧ start.build policy hash = .ok r' ∧
      ((∃ e, (r = .error e ∨ r' = .error e) ∧ e.TooLarge) ∨
        ∃ t t', r = .ok t ∧ r' = .ok t' ∧ t.Alike t' ∧ InStep calls t t') := by
  obtain ⟨r, r', hr, hr', hlarge | ⟨t, t', rfl, rfl, h⟩⟩ :=
    start.build_alike w w' policy hash (V := V)
  · exact ⟨r, r', hr, hr', .inl hlarge⟩
  · exact ⟨_, _, hr, hr', .inr ⟨t, t', rfl, rfl, h,
      h.inStep (Start.build_consistent hr) (Start.build_consistent hr') calls⟩⟩

end HomeChain
