import Mathlib.Data.List.Dedup
import Bustub.Execution.JoinEquivalence

/-!
# Aggregation computes the groups

`AggregationExecutor::Init` folds the child's tuples into `aht_` with `InsertCombine`: a tuple
whose key has no entry starts one from the initial aggregate, and one whose key has an entry
combines its value into it.  The GROUP BY it computes takes each key of the child's tuples once,
with the values of the tuples of that key combined in the child's order, starting from the
initial aggregate (`groupAggregate`).

*The table.*  After any prefix of the child, `aht_` holds each key of the prefix once, with that
key's aggregate over the prefix (`Grouped`, `Grouped.insertCombine`), so after `Init` it holds the
groups of the child (`grouped_init`).

*The output.*  `Next` walks `aht_` and, once at its end, yields the tuple of initial aggregates
when no tuple came before and there are no group-bys (`next_yields`).  So `Init` and `Next` until
false yield one tuple per group with its aggregate, and on an empty child the tuple of initial
aggregates exactly when there are no group-bys (`aggregation_groups`).  `SimpleAggregationHashTable`
is an `unordered_map`, whose iteration order the code does not fix, so the groups are stated up to
order.
-/

namespace Bustub

namespace AggregationExecutor

variable {Tuple Key Val Agg : Type} [DecidableEq Key] (plan : AggregationPlan Tuple Key Val Agg)

/-- The aggregate of the group of `key`: the values of its tuples combined in turn, from the
initial aggregate. -/
def groupAggregate (child : List Tuple) (key : Key) : Agg :=
  ((child.filter (plan.makeAggregateKey · = key)).map plan.makeAggregateValue).foldl
    plan.combineAggregateValues plan.initialAggregateValue

theorem groupAggregate_append (xs : List Tuple) (t : Tuple) (key : Key) :
    groupAggregate plan (xs ++ [t]) key =
      if plan.makeAggregateKey t = key then
        plan.combineAggregateValues (groupAggregate plan xs key) (plan.makeAggregateValue t)
      else groupAggregate plan xs key := by
  unfold groupAggregate
  split_ifs with h <;> simp [List.filter_append, h]

theorem groupAggregate_of_not_mem {xs : List Tuple} {key : Key}
    (h : key ∉ xs.map plan.makeAggregateKey) :
    groupAggregate plan xs key = plan.initialAggregateValue := by
  unfold groupAggregate
  rw [List.filter_eq_nil_iff.mpr fun t ht hk => h (List.mem_map.mpr ⟨t, ht, of_decide_eq_true hk⟩)]
  rfl

/-! ## The table -/

/-- `aht` holds the groups of `xs`: each key of `xs` once, with its aggregate. -/
structure Grouped (aht : List (Key × Agg)) (xs : List Tuple) : Prop where
  nodup : (aht.map (·.1)).Nodup
  keys : ∀ key, key ∈ aht.map (·.1) ↔ key ∈ xs.map plan.makeAggregateKey
  aggregates : ∀ e ∈ aht, e.2 = groupAggregate plan xs e.1

variable {plan}

/-- `InsertCombine` of a tuple's key and value keeps the groups, of the tuples so far and it. -/
theorem Grouped.insertCombine {aht : List (Key × Agg)} {xs : List Tuple} (h : Grouped plan aht xs)
    (t : Tuple) :
    Grouped plan (insertCombine plan aht (plan.makeAggregateKey t) (plan.makeAggregateValue t))
      (xs ++ [t]) := by
  have hkeys : ∀ key, key ∈ (xs ++ [t]).map plan.makeAggregateKey ↔
      key ∈ xs.map plan.makeAggregateKey ∨ key = plan.makeAggregateKey t := by
    simp [or_comm]
  unfold AggregationExecutor.insertCombine
  split_ifs with hany
  · -- the key has an entry, which takes the value
    have hmem : plan.makeAggregateKey t ∈ aht.map (·.1) := by
      obtain ⟨e, he, hek⟩ := List.any_eq_true.mp hany
      exact List.mem_map.mpr ⟨e, he, of_decide_eq_true hek⟩
    have hfst : (aht.map fun e => if e.1 = plan.makeAggregateKey t then
        (e.1, plan.combineAggregateValues e.2 (plan.makeAggregateValue t)) else e).map (·.1) =
        aht.map (·.1) := by
      simp only [List.map_map]
      exact List.map_congr_left fun e _ => by dsimp only [Function.comp]; split_ifs <;> rfl
    refine ⟨hfst ▸ h.nodup, fun key => ?_, fun e' he' => ?_⟩
    · rw [hfst, hkeys, ← h.keys]
      exact ⟨.inl, fun hk => hk.elim id fun hk => hk ▸ hmem⟩
    · obtain ⟨e, he, rfl⟩ := List.mem_map.mp he'
      by_cases hek : e.1 = plan.makeAggregateKey t
      · simp only [if_pos hek, groupAggregate_append, if_pos hek.symm, h.aggregates e he]
      · simp only [if_neg hek, groupAggregate_append, if_neg (Ne.symm hek), h.aggregates e he]
  · -- a new key: a new entry from the initial aggregate
    have hnot : plan.makeAggregateKey t ∉ aht.map (·.1) := fun hmem => hany <| by
      obtain ⟨e, he, hek⟩ := List.mem_map.mp hmem
      exact List.any_eq_true.mpr ⟨e, he, decide_eq_true hek⟩
    refine ⟨?_, fun key => ?_, fun e he => ?_⟩
    · rw [List.map_append, List.nodup_append]
      exact ⟨h.nodup, List.nodup_singleton _, List.disjoint_singleton.mpr hnot⟩
    · rw [List.map_append, List.mem_append, h.keys, hkeys]
      simp
    · rcases List.mem_append.mp he with he | he
      · have hek : e.1 ≠ plan.makeAggregateKey t := fun hek =>
          hnot (hek ▸ List.mem_map_of_mem _ he)
        rw [groupAggregate_append, if_neg (Ne.symm hek), h.aggregates e he]
      · obtain rfl := List.mem_singleton.mp he
        rw [groupAggregate_append, if_pos rfl,
          groupAggregate_of_not_mem plan ((h.keys _).not.mp hnot)]

theorem grouped_foldl : ∀ (ys : List Tuple) {aht : List (Key × Agg)} {xs : List Tuple},
    Grouped plan aht xs →
    Grouped plan (ys.foldl (fun aht t =>
      insertCombine plan aht (plan.makeAggregateKey t) (plan.makeAggregateValue t)) aht) (xs ++ ys)
  | [], _, _, h => by simpa using h
  | t :: ys, _, xs, h => by
    rw [List.foldl_cons, show xs ++ t :: ys = xs ++ [t] ++ ys by simp]
    exact grouped_foldl ys (h.insertCombine t)

/-- After `Init`, `aht_` holds the groups of the child. -/
theorem grouped_init (s : AggregationExecutor Tuple Key Agg) :
    Grouped plan (s.init plan).aht s.child.output := by
  simpa using grouped_foldl s.child.output (show Grouped plan [] ([] : List Tuple) from
    ⟨List.nodup_nil, by simp, by simp⟩)

/-! ## The output -/

variable (plan) (initialTuple : Tuple)

/-- What `Next` calls still yield: the entries of `aht_` from the iterator on, or, at its end, the
tuple of initial aggregates when no tuple came before and there are no group-bys. -/
def pending (s : AggregationExecutor Tuple Key Agg) : List Tuple :=
  if s.position < s.aht.length then (s.aht.drop s.position).map fun e => plan.output e.1 e.2
  else if s.hasNoTuple && plan.groupBysEmpty then [initialTuple] else []

omit [DecidableEq Key] in
theorem next_yields (s : AggregationExecutor Tuple Key Agg) :
    YieldsHead (fun _ => True) (pending plan initialTuple) (next plan initialTuple s)
      (pending plan initialTuple s) := by
  unfold next
  rcases hget : s.aht[s.position]? with _ | ⟨key, agg⟩
  · -- the iterator is at the end
    have hend : ¬ s.position < s.aht.length := by
      rw [List.getElem?_eq_none_iff] at hget; omega
    simp only [pending, if_neg hend]
    by_cases hinit : (s.hasNoTuple && plan.groupBysEmpty) = true
    · simp only [hinit, if_true]
      exact ⟨rfl, fun _ => ⟨trivial, by simp [pending, hend]⟩⟩
    · simp only [hinit]
      exact ⟨rfl, fun h => absurd rfl h⟩
  · -- the entry at the iterator
    obtain ⟨hlt, hentry⟩ := List.getElem?_eq_some_iff.mp hget
    simp only [pending, if_pos hlt, List.drop_eq_getElem_cons hlt, hentry, List.map_cons]
    refine ⟨rfl, fun _ => ⟨trivial, ?_⟩⟩
    by_cases hlt' : s.position + 1 < s.aht.length
    · simp only [pending, if_pos hlt', List.tail_cons]
    · simp [pending, hlt', List.drop_eq_nil_of_le (Nat.le_of_not_lt hlt')]

/-- `Init` and `Next` until false on a child yield, in some order, one tuple for each key of the
child's tuples, with the aggregate of that key's group; on an empty child they yield the tuple
of initial aggregates when there are no group-bys, and nothing otherwise. -/
theorem aggregation_groups (child : List Tuple) {n : Nat} (hn : child.length + 1 < n) :
    (drain (next plan initialTuple) n ((create child).init plan)).Perm
      (if child.isEmpty then (if plan.groupBysEmpty then [initialTuple] else [])
        else (child.map plan.makeAggregateKey).dedup.map fun key =>
          plan.output key (groupAggregate plan child key)) := by
  have hg : Grouped plan ((create child).init plan).aht child := grouped_init _
  have hs : (create child).init plan = ⟨⟨child, []⟩, ((create child).init plan).aht, 0, true⟩ := rfl
  generalize ((create child).init plan).aht = aht at hg hs
  have hlen : aht.length ≤ child.length := by
    simpa using (List.subperm_of_subset hg.nodup fun k hk => (hg.keys k).mp hk).length_le
  rw [hs, drain_eq_pending (fun s _ => next_yields plan initialTuple s) n _ trivial (by
    unfold pending; split_ifs <;> simp <;> omega)]
  cases child with
  | nil =>
    -- no tuple: no group
    obtain rfl : aht = [] := List.map_eq_nil_iff.mp
      (List.eq_nil_iff_forall_not_mem.mpr fun k hk => by simpa using (hg.keys k).mp hk)
    simp [pending]
  | cons t child =>
    -- the groups, each with its aggregate
    have hpos : 0 < aht.length := by
      obtain ⟨e, he, -⟩ := List.mem_map.mp
        ((hg.keys _).mpr (List.mem_map_of_mem _ (List.mem_cons_self t child)))
      exact List.length_pos_of_mem he
    have hout : aht.map (fun e => plan.output e.1 e.2) =
        (aht.map (·.1)).map fun key => plan.output key (groupAggregate plan (t :: child) key) := by
      rw [List.map_map]
      exact List.map_congr_left fun e he => by rw [Function.comp_apply, ← hg.aggregates e he]
    simp only [pending, if_pos hpos, List.drop_zero, List.isEmpty_cons, Bool.false_eq_true,
      if_false, hout]
    exact ((List.perm_ext_iff_of_nodup hg.nodup (List.nodup_dedup _)).mpr fun k => by
      rw [List.mem_dedup, hg.keys]).map _

/-- Summing 1 to 5 grouped by parity: the groups are 1, of sum 9, and 0, of sum 6, and no tuple of
initial aggregates follows, for there are group-bys. -/
theorem aggregation_groups_parity :
    ∃ plan : AggregationPlan Nat Nat Nat Nat,
      plan = ⟨(· % 2), id, 0, (· + ·), false, fun key agg => 100 * key + agg⟩ ∧
      drain (next plan 0) 7 ((create [1, 2, 3, 4, 5]).init plan) = [109, 6] ∧
      [1, 2, 3, 4, 5].length + 1 < 7 ∧
      (drain (next plan 0) 7 ((create [1, 2, 3, 4, 5]).init plan)).Perm
        (if [1, 2, 3, 4, 5].isEmpty then (if plan.groupBysEmpty then [0] else [])
          else ([1, 2, 3, 4, 5].map plan.makeAggregateKey).dedup.map fun key =>
            plan.output key (groupAggregate plan [1, 2, 3, 4, 5] key)) :=
  ⟨_, rfl, rfl, by decide, aggregation_groups _ 0 _ (by decide)⟩

end AggregationExecutor

end Bustub
