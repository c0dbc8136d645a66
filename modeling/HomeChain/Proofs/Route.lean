import Mathlib.Data.List.Chain
import Mathlib.Data.List.Nodup

/-!
# Routes

The links of a table, of either kind, make a partial function on indices: slot `i` leads to
slot `f i`. A list of indices is a route of `f` when each member leads to the one behind it,

  `Route f [i, j, k, …] ↔ f i = some j ∧ f j = some k ∧ …`,

and nothing is said of the last one. Lists that end in the table are written as routes with
the end marked, `l ++ [z]`. This file has what two routes with one start have in common, and
the three ways in which an operation changes a route: a member is bypassed, interposed or
replaced.
-/

namespace HomeChain

/-- Along `l`, every index but the last leads to the one behind it. -/
def Route (f : Nat → Option Nat) (l : List Nat) : Prop :=
  l.IsChain fun i j => f i = some j

instance (f : Nat → Option Nat) (l : List Nat) : Decidable (Route f l) :=
  inferInstanceAs (Decidable (l.IsChain fun i j => f i = some j))

namespace Route

variable {f g : Nat → Option Nat} {i j p x y z : Nat} {l m : List Nat}

@[simp] theorem nil : Route f [] := List.isChain_nil

@[simp] theorem singleton (i : Nat) : Route f [i] := List.isChain_singleton i

@[simp] theorem cons_cons : Route f (i :: j :: l) ↔ f i = some j ∧ Route f (j :: l) :=
  List.isChain_cons_cons

/-- A route is cut at a member into two. -/
theorem append_cons : Route f (l ++ i :: m) ↔ Route f (l ++ [i]) ∧ Route f (i :: m) :=
  List.isChain_split

theorem tail (h : Route f (i :: l)) : Route f l := List.IsChain.tail h

/-- The first member leads to whatever comes behind it. -/
theorem head_leads (h : Route f (i :: l)) (hj : l.head? = some j) : f i = some j :=
  List.IsChain.rel_head? h hj

theorem cons_iff (hj : l.head? = some j) : Route f (i :: l) ↔ f i = some j ∧ Route f l := by
  cases l with
  | nil => simp at hj
  | cons j' l =>
    obtain rfl : j' = j := by simpa using hj
    exact cons_cons

/-- The last member may lead anywhere, so two functions that agree on all others have the
route in common. -/
theorem congr (h : Route f (l ++ [z])) (hfg : ∀ i ∈ l, g i = f i) : Route g (l ++ [z]) := by
  induction l with
  | nil => exact singleton z
  | cons i l ih =>
    obtain ⟨j, hj⟩ : ∃ j, (l ++ [z]).head? = some j := by cases l <;> simp
    rw [List.cons_append, cons_iff hj] at h ⊢
    refine ⟨?_, ih h.2 fun k hk => hfg k (List.mem_cons_of_mem i hk)⟩
    rw [hfg i List.mem_cons_self]
    exact h.1

/-- Every member but the last leads to a member. -/
theorem leads (h : Route f (l ++ [z])) (hi : i ∈ l) : ∃ j ∈ l ++ [z], f i = some j := by
  obtain ⟨a, b, rfl⟩ := List.append_of_mem hi
  rw [List.append_assoc, List.cons_append, append_cons] at h
  obtain ⟨j, hj⟩ : ∃ j, (b ++ [z]).head? = some j := by cases b <;> simp
  refine ⟨j, ?_, h.2.head_leads hj⟩
  have hb : j ∈ b ++ [z] := List.mem_of_mem_head? hj
  simp only [List.mem_append, List.mem_cons] at hb ⊢
  tauto

/-! ## Routes with one start -/

/-- A route that ends where it meets `z` for the first time is settled by its start. -/
theorem unique {l' : List Nat} (h : Route f (i :: l ++ [z])) (h' : Route f (i :: l' ++ [z]))
    (hz : z ∉ l) (hz' : z ∉ l') : l = l' := by
  induction l generalizing i l' with
  | nil =>
    cases l' with
    | nil => rfl
    | cons j l' =>
      have hj : f i = some z := h.head_leads rfl
      have hj' : f i = some j := h'.head_leads rfl
      rw [hj, Option.some.injEq] at hj'
      exact absurd List.mem_cons_self (hj' ▸ hz')
  | cons j l ih =>
    have hj : f i = some j := h.head_leads rfl
    cases l' with
    | nil =>
      have hj' : f i = some z := h'.head_leads rfl
      rw [hj, Option.some.injEq] at hj'
      exact absurd List.mem_cons_self (hj' ▸ hz)
    | cons j' l' =>
      have hj' : f i = some j' := h'.head_leads rfl
      rw [hj, Option.some.injEq] at hj'
      subst hj'
      rw [ih h.tail h'.tail (fun hm => hz (List.mem_cons_of_mem j hm))
        (fun hm => hz' (List.mem_cons_of_mem j hm))]

/-- A route that ends where it meets `z` for the first time never meets an index twice: from
there on it would go round for ever. -/
theorem nodup (h : Route f (l ++ [z])) (hz : z ∉ l) : l.Nodup := by
  induction l with
  | nil => exact List.nodup_nil
  | cons i l ih =>
    have hzl : z ∉ l := fun hm => hz (List.mem_cons_of_mem i hm)
    refine List.nodup_cons.mpr ⟨fun hi => ?_, ih h.tail hzl⟩
    obtain ⟨a, b, rfl⟩ := List.append_of_mem hi
    have hb : Route f (i :: b ++ [z]) := by
      have ht : Route f (a ++ i :: b ++ [z]) := h.tail
      rw [List.append_assoc, List.cons_append, append_cons] at ht
      exact ht.2
    have hlen := congrArg List.length (h.unique hb hzl fun hm => hzl (by simp [hm]))
    simp at hlen
    omega

/-- Where the first member leads is the last one of the way back. -/
theorem getLast?_of_leads (h : Route f (i :: (l.reverse ++ [z]))) (hp : f i = some p) :
    (z :: l).getLast? = some p := by
  obtain ⟨q, hq⟩ : ∃ q, (l.reverse ++ [z]).head? = some q := by cases l.reverse <;> simp
  have hi : f i = some q := h.head_leads hq
  rw [hp, Option.some.injEq] at hi
  rw [← List.reverse_cons, List.head?_reverse] at hq
  rw [hq, hi]

/-- The members lead, one by one, to the members behind the first and to the end. -/
theorem map_eq (h : Route f (i :: l ++ [z])) : (i :: l).map f = (l ++ [z]).map some := by
  induction l generalizing i with
  | nil => simpa using h
  | cons j l ih =>
    rw [List.cons_append, List.cons_append, cons_cons] at h
    rw [List.map_cons, h.1, ih h.2]
    rfl

/-- If two routes have the same start, end and members, then two functions that agree on all
members but one agree on that one too: it leads to what no other member leads to. -/
theorem leads_eq {l' : List Nat} (h : Route f (i :: l ++ [z])) (h' : Route g (i :: l' ++ [z]))
    (hperm : l.Perm l') (hnodup : (i :: l).Nodup) (hj : j ∈ i :: l)
    (hfg : ∀ k, k ≠ j → g k = f k) : g j = f j := by
  obtain ⟨a, b, hab⟩ := List.append_of_mem hj
  rw [hab, List.nodup_middle, List.nodup_cons] at hnodup
  have hfront : a.map g = a.map f := List.map_congr_left fun k hk =>
    hfg k (ne_of_mem_of_not_mem (List.mem_append_left b hk) hnodup.1)
  have hrear : b.map g = b.map f := List.map_congr_left fun k hk =>
    hfg k (ne_of_mem_of_not_mem (List.mem_append_right a hk) hnodup.1)
  -- both functions take the members to all members but the first, and to the end
  have hmap : ((i :: l).map g).Perm ((i :: l).map f) := by
    have hg := (hperm.cons i).map g
    rw [h'.map_eq] at hg
    rw [h.map_eq]
    exact hg.trans ((hperm.symm.append_right [z]).map some)
  rw [hab, List.map_append, List.map_append, List.map_cons, List.map_cons, hfront, hrear,
    List.perm_append_left_iff] at hmap
  exact List.singleton_perm_singleton.mp ((List.perm_append_right_iff (b.map f)).mp hmap)

/-! ## Changes of a route -/

/-- `p` is made to lead where `x`, the member behind it, leads. -/
theorem bypass (h : Route f (l ++ p :: x :: (m ++ [z]))) (hp : g p = f x)
    (hg : ∀ i ∈ l ++ m, g i = f i) : Route g (l ++ p :: (m ++ [z])) := by
  obtain ⟨q, hq⟩ : ∃ q, (m ++ [z]).head? = some q := by cases m <;> simp
  rw [append_cons, cons_cons, cons_iff hq] at h
  rw [append_cons, cons_iff hq, hp]
  exact ⟨h.1.congr fun i hi => hg i (List.mem_append_left m hi), h.2.2.1,
    h.2.2.2.congr fun i hi => hg i (List.mem_append_right l hi)⟩

/-- `p` is made to lead to `x`, and `x` where `p` led. -/
theorem interpose (h : Route f (l ++ p :: (m ++ [z]))) (hp : g p = some x) (hx : g x = f p)
    (hg : ∀ i ∈ l ++ m, g i = f i) : Route g (l ++ p :: x :: (m ++ [z])) := by
  obtain ⟨q, hq⟩ : ∃ q, (m ++ [z]).head? = some q := by cases m <;> simp
  rw [append_cons, cons_iff hq] at h
  rw [append_cons, cons_cons, cons_iff hq, hx]
  exact ⟨h.1.congr fun i hi => hg i (List.mem_append_left m hi), hp, h.2.1,
    h.2.2.congr fun i hi => hg i (List.mem_append_right l hi)⟩

/-- `y` takes the place of `x`: `p` is made to lead to `y`, and `y` where `x` led. -/
theorem replace (h : Route f (l ++ p :: x :: (m ++ [z]))) (hp : g p = some y) (hy : g y = f x)
    (hg : ∀ i ∈ l ++ m, g i = f i) : Route g (l ++ p :: y :: (m ++ [z])) := by
  obtain ⟨q, hq⟩ : ∃ q, (m ++ [z]).head? = some q := by cases m <;> simp
  rw [append_cons, cons_cons, cons_iff hq] at h
  rw [append_cons, cons_cons, cons_iff hq, hy]
  exact ⟨h.1.congr fun i hi => hg i (List.mem_append_left m hi), hp, h.2.2.1,
    h.2.2.2.congr fun i hi => hg i (List.mem_append_right l hi)⟩

end Route

end HomeChain
