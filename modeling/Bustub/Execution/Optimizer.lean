import Bustub.Execution.Executors

/-!
# The Sort+Limit to TopN rule

`Optimizer::OptimizeSortLimitAsTopN` (`optimizer/sort_limit_as_topn.cpp`) rewrites a plan tree
bottom up: it optimizes the children, rebuilds the node from them, and replaces a `Limit` whose
child was a `Sort` by a `TopN` with the limit, the sort's order-bys and the sort's optimized child.

A plan node here is a `Limit`, a `Sort`, a `TopN`, or a node of any other kind with its children.
What a plan yields, `PlanNode.result`, is what its executor yields over what its children yield,
with at most `fuel` calls of `Next` on each: `LimitExecutor`, `SortExecutor` and `TopNExecutor` as
`Executors` models them, and for every other kind a fixed function of the children's results, a
parameter.  An order-by is of any type, with the `CompareTuples` it gives as a parameter.
`result_optimizeSortLimitAsTopN` says the rule keeps what every plan yields, and the exception it
throws, for every `fuel`; with `fuel` at least the size of every intermediate result that is what
the executors yield before they return false.
-/

namespace Bustub

/-- A plan node, with its children. -/
inductive PlanNode (OrderBy Kind : Type) where
  /-- `LimitPlanNode`. -/
  | limit (limit : Nat) (child : PlanNode OrderBy Kind)
  /-- `SortPlanNode`. -/
  | sort (orderBy : OrderBy) (child : PlanNode OrderBy Kind)
  /-- `TopNPlanNode`. -/
  | topN (orderBy : OrderBy) (n : Nat) (child : PlanNode OrderBy Kind)
  /-- A node of another kind. -/
  | other (kind : Kind) (children : List (PlanNode OrderBy Kind))

namespace PlanNode

variable {Tuple OrderBy Kind : Type}

/-- The node the rule builds for a `Limit n` over `child`, whose optimized form is `optimized`:
a `TopN` when `child` is a `Sort`, whose optimized form, cast to a `SortPlanNode`, gives the
order-bys and the child. -/
def rewriteLimit (n : Nat) : PlanNode OrderBy Kind → PlanNode OrderBy Kind → PlanNode OrderBy Kind
  | sort .., sort orderBy grandchild => topN orderBy n grandchild
  | _, optimized => limit n optimized

mutual

/-- `OptimizeSortLimitAsTopN(plan)`.  A `Sort` stays a `Sort` when optimized, so the
`dynamic_cast` in `rewriteLimit` never fails. -/
def optimizeSortLimitAsTopN : PlanNode OrderBy Kind → PlanNode OrderBy Kind
  | limit n child => rewriteLimit n child (optimizeSortLimitAsTopN child)
  | sort orderBy child => sort orderBy (optimizeSortLimitAsTopN child)
  | topN orderBy n child => topN orderBy n (optimizeSortLimitAsTopN child)
  | other kind children => other kind (optimizeChildren children)

/-- The optimized children of a node. -/
def optimizeChildren : List (PlanNode OrderBy Kind) → List (PlanNode OrderBy Kind)
  | [] => []
  | child :: children => optimizeSortLimitAsTopN child :: optimizeChildren children

end

variable (compare : OrderBy → Tuple → Tuple → Except String Bool)
  (yieldsOther : Kind → List (Except String (List Tuple)) → Except String (List Tuple))

mutual

/-- What a plan yields with at most `fuel` calls of `Next` on each executor, or the exception it
throws. -/
def result (fuel : Nat) : PlanNode OrderBy Kind → Except String (List Tuple)
  | limit n child => (result fuel child).map (LimitExecutor.run n fuel)
  | sort orderBy child => result fuel child >>= SortExecutor.run (compare orderBy) fuel
  | topN orderBy n child => result fuel child >>= TopNExecutor.run (compare orderBy) n fuel
  | other kind children => yieldsOther kind (results fuel children)

/-- What the children of a node yield. -/
def results (fuel : Nat) : List (PlanNode OrderBy Kind) → List (Except String (List Tuple))
  | [] => []
  | child :: children => result fuel child :: results fuel children

end

variable (fuel : Nat)

/-- A `TopN` over a child yields what a `Limit` over a `Sort` over it yields. -/
theorem result_topN (orderBy : OrderBy) (n : Nat) (child : PlanNode OrderBy Kind) :
    (topN orderBy n child).result compare yieldsOther fuel =
      (limit n (sort orderBy child)).result compare yieldsOther fuel := by
  simp only [result]
  cases result compare yieldsOther fuel child with
  | error e => rfl
  | ok tuples => exact topN_run_eq_limit_sort _ n fuel tuples

mutual

theorem result_optimizeSortLimitAsTopN :
    ∀ p : PlanNode OrderBy Kind,
      (optimizeSortLimitAsTopN p).result compare yieldsOther fuel =
        p.result compare yieldsOther fuel
  | limit n (sort orderBy grandchild) => by
    rw [optimizeSortLimitAsTopN, optimizeSortLimitAsTopN, rewriteLimit, result_topN]
    simp only [result, result_optimizeSortLimitAsTopN grandchild]
  -- a `Limit` over anything but a `Sort` stays a `Limit` over the optimized child
  | limit n (limit m child) =>
    congrArg (Except.map (LimitExecutor.run n fuel))
      (result_optimizeSortLimitAsTopN (limit m child))
  | limit n (topN orderBy m child) =>
    congrArg (Except.map (LimitExecutor.run n fuel))
      (result_optimizeSortLimitAsTopN (topN orderBy m child))
  | limit n (other kind children) =>
    congrArg (Except.map (LimitExecutor.run n fuel))
      (result_optimizeSortLimitAsTopN (other kind children))
  | sort orderBy child => by
    simp only [optimizeSortLimitAsTopN, result, result_optimizeSortLimitAsTopN child]
  | topN orderBy n child => by
    simp only [optimizeSortLimitAsTopN, result, result_optimizeSortLimitAsTopN child]
  | other kind children => by
    simp only [optimizeSortLimitAsTopN, result, results_optimizeChildren children]

theorem results_optimizeChildren :
    ∀ children : List (PlanNode OrderBy Kind),
      results compare yieldsOther fuel (optimizeChildren children) =
        results compare yieldsOther fuel children
  | [] => rfl
  | child :: children => by
    simp only [optimizeChildren, results, result_optimizeSortLimitAsTopN child,
      results_optimizeChildren children]

end

omit fuel in
/-- The rule keeps what every plan yields and the exception it throws, with any number of calls
of `Next` on each executor, because a `TopN` yields what a `Limit` over a `Sort` yields over every
child output and with any number of calls.  With a call for each tuple of the child, or more,
that is the first `n` tuples of what the `Sort` yields, and nothing after them. -/
theorem sortLimitAsTopN_preserves_results :
    (∀ (fuel : Nat) (p : PlanNode OrderBy Kind),
      (optimizeSortLimitAsTopN p).result compare yieldsOther fuel =
        p.result compare yieldsOther fuel) ∧
    ∀ (orderBy : OrderBy) (n fuel : Nat) (child : List Tuple),
      TopNExecutor.run (compare orderBy) n fuel child =
          (SortExecutor.run (compare orderBy) fuel child).map (LimitExecutor.run n fuel) ∧
        (child.length ≤ fuel →
          TopNExecutor.run (compare orderBy) n fuel child =
            (sortYields (compare orderBy) child).map (·.take n)) :=
  ⟨fun fuel => result_optimizeSortLimitAsTopN compare yieldsOther fuel,
    fun orderBy n fuel _ => ⟨topN_run_eq_limit_sort (compare orderBy) n fuel _,
      fun h => by rw [TopNExecutor.run_of_le _ n h, sortYields_eq]⟩⟩

end PlanNode

end Bustub
