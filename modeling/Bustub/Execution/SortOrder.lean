import Bustub.Execution.Executors

/-!
# `SortTuples` sorts

`SortExecutor::SortTuples` is a bubble sort: each pass of its `for` loop carries a tuple rightwards
while `CompareTuples` says it stays before the next one, the `while` loop shortens the range by one
after each pass, and it stops after a pass without a swap.  When `CompareTuples` orders the tuples
strictly (`OrdersStrictly`: it answers on every two different tuples, puts one of them first, and
putting first is transitive), `SortTuples` returns them sorted, and the sort and top-N executors,
given a call of `Next` for each tuple or more, yield them in that order and stop
(`sortYields_sorted`).  Where it does not answer, as on two tuples equal
on every order-by, the executors throw (`sortExecutor_throws_on_duplicates`).

*One pass.*  The tuple a pass carries to the end of its range comes after every other tuple of the
range, and a pass without a swap leaves a range that was sorted already (`bubbleFrom_spec`).

*The passes.*  Before each pass the tuples past the range are sorted and come after those in it;
the pass moves the last tuple of the range to the front of the sorted part
(`sortPasses_sorted`).
-/

namespace Bustub

variable {Tuple : Type}

/-- `compare` orders the tuples of `U` strictly: on two different tuples it answers, it puts one
of them first, and putting first is transitive. -/
structure OrdersStrictly (compare : Tuple → Tuple → Except String Bool) (U : List Tuple) :
    Prop where
  answers : ∀ a ∈ U, ∀ b ∈ U, a ≠ b → compare a b = .ok true ∨ compare a b = .ok false
  flip : ∀ a ∈ U, ∀ b ∈ U, a ≠ b → compare a b = .ok false → compare b a = .ok true
  trans : ∀ a ∈ U, ∀ b ∈ U, ∀ c ∈ U,
    compare a b = .ok true → compare b c = .ok true → compare a c = .ok true

section Sorted

variable {compare : Tuple → Tuple → Except String Bool} {U : List Tuple}
  (hord : OrdersStrictly compare U)
include hord

/-- The tuple one pass carries to the end of its range comes after every other tuple of the
range; a pass without a swap leaves the range as it was, and the range was sorted. -/
theorem bubbleFrom_spec : ∀ (tuples : List Tuple) (current : Tuple),
    (current :: tuples).Nodup → (∀ x ∈ current :: tuples, x ∈ U) →
    ∃ front m swapped, bubbleFrom compare current tuples = .ok (front ++ [m], swapped) ∧
      (∀ x ∈ front, compare x m = .ok true) ∧
      (swapped = false → front ++ [m] = current :: tuples ∧
        (current :: tuples).Pairwise fun a b => compare a b = .ok true)
  | [], current, _, _ =>
    ⟨[], current, false, rfl, by simp, fun _ => ⟨rfl, List.pairwise_singleton _ _⟩⟩
  | next :: tuples, current, hnd, hU => by
    have hne : current ≠ next := fun h => (List.nodup_cons.mp hnd).1 (h ▸ List.mem_cons_self _ _)
    have hcur := hU current (List.mem_cons_self _ _)
    have hnext := hU next (List.mem_cons_of_mem _ (List.mem_cons_self _ _))
    rcases hord.answers current hcur next hnext hne with hlt | hgt
    · -- `current` stays before `next`, and the pass goes on from `next`
      obtain ⟨front, m, sw, hr, hmax, hsorted⟩ := bubbleFrom_spec tuples next hnd.of_cons
        fun x hx => hU x (List.mem_cons_of_mem _ hx)
      have hmem : ∀ x ∈ next :: tuples, x ∈ front ++ [m] :=
        fun x hx => (bubbleFrom_perm compare tuples next hr).mem_iff.mpr hx
      have hm : m ∈ next :: tuples := (bubbleFrom_perm compare tuples next hr).mem_iff.mp (by simp)
      have hmU := hU m (List.mem_cons_of_mem _ hm)
      -- every tuple of the range is before `m`, `next` directly or through the pass
      have hnextm : next = m ∨ compare next m = .ok true := by
        rcases List.mem_append.mp (hmem next (List.mem_cons_self _ _)) with h | h
        · exact .inr (hmax next h)
        · exact .inl (List.mem_singleton.mp h)
      refine ⟨current :: front, m, sw, ?_, ?_, fun hsw => ?_⟩
      · simp [bubbleFrom, hlt, hr, bind, Except.bind, pure, Except.pure]
      · rintro x (_ | ⟨_, hx⟩)
        · rcases hnextm with rfl | hnm
          · exact hlt
          · exact hord.trans _ hcur _ hnext _ hmU hlt hnm
        · exact hmax x hx
      · obtain ⟨heq, hP⟩ := hsorted hsw
        refine ⟨by rw [List.cons_append, heq], List.pairwise_cons.mpr ⟨?_, hP⟩⟩
        rintro y (_ | ⟨_, hy⟩)
        · exact hlt
        · exact hord.trans _ hcur _ hnext _ (hU y (List.mem_cons_of_mem _
            (List.mem_cons_of_mem _ hy))) hlt ((List.pairwise_cons.mp hP).1 y hy)
    · -- `next` moves in front of `current`, which the pass carries on
      have hsl : (current :: tuples).Sublist (current :: next :: tuples) :=
        (List.sublist_cons_self _ _).cons_cons _
      obtain ⟨front, m, sw, hr, hmax, -⟩ := bubbleFrom_spec tuples current (hnd.sublist hsl)
        fun x hx => hU x (hsl.subset hx)
      have hperm := bubbleFrom_perm compare tuples current hr
      have hmU := hU m (hsl.subset (hperm.mem_iff.mp (by simp)))
      have hnc := hord.flip current hcur next hnext hne hgt
      refine ⟨next :: front, m, true, ?_, ?_, fun h => Bool.noConfusion h⟩
      · simp [bubbleFrom, hgt, hr, bind, Except.bind, pure, Except.pure]
      · rintro x (_ | ⟨_, hx⟩)
        · rcases List.mem_append.mp (hperm.mem_iff.mpr (List.mem_cons_self current tuples))
            with h | h
          · exact hord.trans _ hnext _ hcur _ hmU hnc (hmax current h)
          · rw [← List.mem_singleton.mp h]
            exact hnc
        · exact hmax x hx

/-- The passes of `SortTuples` over the first `n` tuples, the tuples after them being sorted and
each after every tuple before it, leave all the tuples sorted. -/
theorem sortPasses_sorted : ∀ (n : Nat) (tuples : List Tuple), tuples.Nodup →
    (∀ x ∈ tuples, x ∈ U) → n ≤ tuples.length →
    (tuples.drop n).Pairwise (fun a b => compare a b = .ok true) →
    (∀ x ∈ tuples.take n, ∀ y ∈ tuples.drop n, compare x y = .ok true) →
    ∃ sorted, sortPasses compare n tuples = .ok sorted ∧
      sorted.Pairwise fun a b => compare a b = .ok true
  | 0, tuples, _, _, _, hdrop, _ => ⟨tuples, rfl, by simpa using hdrop⟩
  | n + 1, tuples, hnd, hU, hn, hdrop, hcross => by
    obtain ⟨c, l, htake⟩ : ∃ c l, tuples.take (n + 1) = c :: l :=
      List.exists_cons_of_length_pos (by rw [List.length_take]; omega)
    have hsplit : tuples = c :: l ++ tuples.drop (n + 1) := by
      rw [← htake, List.take_append_drop]
    obtain ⟨front, m, sw, hr, hmax, hsorted⟩ := bubbleFrom_spec hord l c
      (htake ▸ hnd.sublist (List.take_sublist _ _))
      fun x hx => hU x (List.mem_of_mem_take (htake ▸ hx))
    have hperm := bubbleFrom_perm compare l c hr
    have hpass : bubblePass compare (tuples.take (n + 1)) = .ok (front ++ [m], sw) := by
      rw [htake]; exact hr
    cases sw
    · -- no swap: the range was sorted, and so are all the tuples
      obtain ⟨heq, hP⟩ := hsorted rfl
      refine ⟨front ++ [m] ++ tuples.drop (n + 1), by simp [sortPasses, hpass, bind,
        Except.bind, pure, Except.pure], ?_⟩
      rw [heq, List.pairwise_append]
      exact ⟨hP, hdrop, htake ▸ hcross⟩
    · -- the last tuple of the range joins the front of the sorted tuples
      have hlen : front.length = n := by
        have h1 : (front ++ [m]).length = (c :: l).length := hperm.length_eq
        have h2 : (c :: l).length = n + 1 := by rw [← htake, List.length_take]; omega
        simp only [List.length_append, List.length_singleton] at h1
        omega
      have hperm' : (front ++ [m] ++ tuples.drop (n + 1)).Perm tuples := by
        conv_rhs => rw [hsplit]
        exact hperm.append_right _
      have hinP : ∀ x ∈ front ++ [m], x ∈ tuples.take (n + 1) := fun x hx => by
        rw [htake]; exact hperm.mem_iff.mp hx
      have hdrop' : (front ++ [m] ++ tuples.drop (n + 1)).drop n = m :: tuples.drop (n + 1) := by
        rw [List.append_assoc, List.drop_left' hlen, List.singleton_append]
      have htake' : (front ++ [m] ++ tuples.drop (n + 1)).take n = front := by
        rw [List.append_assoc, List.take_left' hlen]
      obtain ⟨sorted, hs, hsorted'⟩ := sortPasses_sorted n _ (hperm'.nodup_iff.mpr hnd)
        (fun x hx => hU x (hperm'.subset hx)) (by simp [hlen])
        (by
          rw [hdrop']
          exact List.pairwise_cons.mpr ⟨hcross m (hinP m (by simp)), hdrop⟩)
        (by
          rw [htake', hdrop']
          rintro x hx y (_ | ⟨_, hy⟩)
          · exact hmax x hx
          · exact hcross x (hinP x (List.mem_append_left _ hx)) y hy)
      refine ⟨sorted, ?_, hsorted'⟩
      simp only [sortPasses, hpass, bind, Except.bind, if_true]
      exact hs

end Sorted

/-- `SortTuples` of distinct tuples that `compare` orders strictly returns them sorted. -/
theorem sortTuples_sorted {compare : Tuple → Tuple → Except String Bool} {tuples : List Tuple}
    (hnodup : tuples.Nodup) (hord : OrdersStrictly compare tuples) :
    ∃ sorted, sortTuples compare tuples = .ok sorted ∧ sorted.Perm tuples ∧
      sorted.Pairwise fun a b => compare a b = .ok true := by
  obtain ⟨sorted, hs, hsorted⟩ := sortPasses_sorted hord tuples.length tuples hnodup
    (fun _ hx => hx) le_rfl (by simp) (by simp)
  exact ⟨sorted, hs, sortPasses_perm compare _ hs, hsorted⟩

/-- Over a child whose tuples are distinct and ordered strictly by `CompareTuples`, a fresh
`SortExecutor` given a call of `Next` for each tuple, or more, yields all of them, each before every
later one, and then returns false; a `TopNExecutor` with limit `n` yields the first `n` of the same
order and then returns false. -/
theorem sortYields_sorted {compare : Tuple → Tuple → Except String Bool} {child : List Tuple}
    (hnodup : child.Nodup) (hord : OrdersStrictly compare child) (n : Nat) :
    ∃ sorted, sorted.Perm child ∧ sorted.Pairwise (fun a b => compare a b = .ok true) ∧
      ∀ fuel, child.length ≤ fuel →
        SortExecutor.run compare fuel child = .ok sorted ∧
          TopNExecutor.run compare n fuel child = .ok (sorted.take n) := by
  obtain ⟨sorted, hs, hperm, hsorted⟩ := sortTuples_sorted hnodup hord
  refine ⟨sorted, hperm, hsorted, fun fuel h => ⟨?_, ?_⟩⟩
  · rw [SortExecutor.run_of_le compare h, hs]
  · rw [TopNExecutor.run_of_le compare n h, hs]; rfl

/-- Sorting `[3, 1, 2]` by `<` on numbers: with three calls of `Next` or more, the sort executor
yields the three in increasing order and the top-2 executor the first two of them. -/
theorem sortYields_sorted_three :
    ∃ sorted, sorted.Perm [3, 1, 2] ∧
      sorted.Pairwise (fun a b => (.ok (decide (a < b)) : Except String Bool) = .ok true) ∧
      ∀ fuel, [3, 1, 2].length ≤ fuel →
        SortExecutor.run (fun a b : Nat => .ok (decide (a < b))) fuel [3, 1, 2] = .ok sorted ∧
          TopNExecutor.run (fun a b : Nat => .ok (decide (a < b))) 2 fuel [3, 1, 2] =
            .ok (sorted.take 2) := by
  refine sortYields_sorted (by decide) ⟨?_, ?_, ?_⟩ 2
  · intro a _ b _ _
    by_cases h : a < b <;> simp [h]
  · intro a _ b _ _ h
    simp at h ⊢
    omega
  · intro a _ b _ c _ hab hbc
    simp at hab hbc ⊢
    omega

end Bustub
