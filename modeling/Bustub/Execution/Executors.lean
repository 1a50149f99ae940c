import Mathlib.Data.List.Basic
import Bustub.Basic

/-!
# The executors of a query

An executor (`execution/*_executor.cpp`) is a state machine: `Init()` (re)starts it, and each
`Next(&tuple, &rid)` either yields one tuple or returns false.  The model writes each executor as a
structure holding the members its `Init` and `Next` read and write, with `init` and `next` over
it; `next` returns the tuple it yields, or `none` for false.  `drain` makes `Next` calls until one
returns false, and gives the tuples yielded.

A child executor is a `Child`: the tuples it yields after `Init`, and those still to come.  Tuples,
values and keys are type parameters, and what the source computes from the plan (an expression's
value, a join predicate, the output tuple of a join or an aggregate) is a function the plan
structure carries.  Exceptions are `Except String` with the source's message.

`SortTuples` is a bubble sort whose `while` loop shortens the range by one per pass, so the model's
loop is structural in that range; `CompareTuples` throws on a pair equal on every order-by, as
`UNREACHABLE` does.
-/

namespace Bustub

/-- `CmpBool`: the result of a comparison of values, `CmpNull` when one of them is NULL. -/
inductive CmpBool
  | cmpFalse
  | cmpTrue
  | cmpNull
  deriving DecidableEq, Repr

/-- `OrderByType`. -/
inductive OrderByType
  | invalid
  | default
  | asc
  | desc
  deriving DecidableEq, Repr

/-- The comparisons of `Value` that `CompareTuples` calls. -/
structure ValueCompare (Value : Type) where
  compareEquals : Value → Value → CmpBool
  compareLessThan : Value → Value → CmpBool
  compareGreaterThan : Value → Value → CmpBool

variable {Tuple Value : Type}

/-! ## Sorting -/

/-- `CompareTuples(a, b)` over the order-bys of the plan, each an order and the value its
expression gives a tuple: whether `a` stays before `b`.  A pair no order-by tells apart reaches
`UNREACHABLE`. -/
def compareTuples (cmp : ValueCompare Value) :
    List (OrderByType × (Tuple → Value)) → Tuple → Tuple → Except String Bool
  | [], _, _ => .error "doesn't support duplicate key"
  | (orderByType, expression) :: orderBy, a, b =>
    let valueA := expression a
    let valueB := expression b
    if cmp.compareEquals valueA valueB = .cmpTrue then compareTuples cmp orderBy a b
    else if orderByType = .default ∨ orderByType = .asc then
      if cmp.compareLessThan valueA valueB = .cmpTrue then .ok true
      else if cmp.compareGreaterThan valueA valueB = .cmpTrue then .ok false
      else compareTuples cmp orderBy a b
    else if orderByType = .desc then
      if cmp.compareGreaterThan valueA valueB = .cmpTrue then .ok true
      else if cmp.compareLessThan valueA valueB = .cmpTrue then .ok false
      else compareTuples cmp orderBy a b
    else compareTuples cmp orderBy a b

/-- The `for` loop of `SortTuples` from the tuple `current` that moves right on: each step
compares it with the next tuple and swaps them when `CompareTuples` says no; the flag is
`swapped`. -/
def bubbleFrom (compare : Tuple → Tuple → Except String Bool) (current : Tuple) :
    List Tuple → Except String (List Tuple × Bool)
  | [] => pure ([current], false)
  | next :: tuples => do
    if ← compare current next then
      let r ← bubbleFrom compare next tuples
      pure (current :: r.1, r.2)
    else
      let r ← bubbleFrom compare current tuples
      pure (next :: r.1, true)

/-- One pass of the `for` loop over a prefix of the vector. -/
def bubblePass (compare : Tuple → Tuple → Except String Bool) :
    List Tuple → Except String (List Tuple × Bool)
  | [] => pure ([], false)
  | current :: tuples => bubbleFrom compare current tuples

/-- The `while (swapped)` loop of `SortTuples`, `n` being the length of the prefix the next pass
runs over; each pass decrements `n`. -/
def sortPasses (compare : Tuple → Tuple → Except String Bool) :
    Nat → List Tuple → Except String (List Tuple)
  | 0, tuples => pure tuples
  | n + 1, tuples => do
    let r ← bubblePass compare (tuples.take (n + 1))
    if r.2 then sortPasses compare n (r.1 ++ tuples.drop (n + 1))
    else pure (r.1 ++ tuples.drop (n + 1))

/-- `SortTuples(tuples)`. -/
def sortTuples (compare : Tuple → Tuple → Except String Bool) (tuples : List Tuple) :
    Except String (List Tuple) :=
  sortPasses compare tuples.length tuples

/-! ## Running an executor -/

/-- `Next` calls until one returns false, at most `fuel` of them: the tuples they yield. -/
def drain {S : Type} (next : S → Option Tuple × S) : Nat → S → List Tuple
  | 0, _ => []
  | fuel + 1, s =>
    match next s with
    | (some t, s') => t :: drain next fuel s'
    | (none, _) => []

/-- The state after `k` calls of `Next`. -/
def afterNexts {S : Type} (next : S → Option Tuple × S) : Nat → S → S
  | 0, s => s
  | k + 1, s => afterNexts next k (next s).2

/-- A restartable child executor: the tuples it yields after `Init`, and those it has still to
yield. -/
structure Child (Tuple : Type) where
  output : List Tuple
  rest : List Tuple

namespace Child

/-- `Init()`: the child starts again from its first tuple. -/
def init (child : Child Tuple) : Child Tuple := { child with rest := child.output }

/-- `Next(&tuple, &rid)`. -/
def next (child : Child Tuple) : Option Tuple × Child Tuple :=
  match child.rest with
  | [] => (none, child)
  | t :: rest => (some t, { child with rest := rest })

end Child

/-! ## `SortExecutor` -/

/-- `SortExecutor`: its vector `tuples_`, whose back is yielded first. -/
structure SortExecutor (Tuple : Type) where
  tuples : List Tuple

namespace SortExecutor

/-- `Init()`: the child's tuples are pushed onto `tuples_`, which is sorted and reversed. -/
def init (compare : Tuple → Tuple → Except String Bool) (s : SortExecutor Tuple)
    (child : List Tuple) : Except String (SortExecutor Tuple) := do
  let sorted ← sortTuples compare (s.tuples ++ child)
  pure ⟨sorted.reverse⟩

/-- `Next()`: the back of `tuples_` is popped. -/
def next (s : SortExecutor Tuple) : Option Tuple × SortExecutor Tuple :=
  (s.tuples.getLast?, ⟨s.tuples.dropLast⟩)

end SortExecutor

/-! ## `TopNExecutor` -/

/-- `TopNExecutor`: `limit_count_` and the queue `queue_`, whose front is yielded first. -/
structure TopNExecutor (Tuple : Type) where
  limitCount : Nat
  queue : List Tuple

namespace TopNExecutor

/-- The loop of `Init` that moves the back of the reversed vector, the least tuple left, into
`queue_` while `limit_count_` is positive; the vector is read from its back, in sorted order. -/
def fillQueue : Nat → List Tuple → List Tuple → Nat × List Tuple
  | limitCount + 1, t :: sorted, queue => fillQueue limitCount sorted (queue ++ [t])
  | limitCount, _, queue => (limitCount, queue)

/-- `Init()`: the child's tuples are sorted, and the first `n` of them go into `queue_`. -/
def init (compare : Tuple → Tuple → Except String Bool) (n : Nat) (s : TopNExecutor Tuple)
    (child : List Tuple) : Except String (TopNExecutor Tuple) := do
  let sorted ← sortTuples compare child
  let r := fillQueue n sorted s.queue
  pure ⟨r.1, r.2⟩

/-- `Next()`: the front of `queue_` is popped. -/
def next (s : TopNExecutor Tuple) : Option Tuple × TopNExecutor Tuple :=
  (s.queue.head?, { s with queue := s.queue.tail })

end TopNExecutor

/-! ## `LimitExecutor` -/

/-- `LimitExecutor`: `limit_count_` and its child. -/
structure LimitExecutor (Tuple : Type) where
  limitCount : Nat
  child : Child Tuple

namespace LimitExecutor

/-- `Init()`: `limit_count_` is reset and the child restarted. -/
def init (limit : Nat) (s : LimitExecutor Tuple) : LimitExecutor Tuple :=
  ⟨limit, s.child.init⟩

/-- `Next()`: the child's next tuple, while `limit_count_` is positive; once it is 0, one more
tuple of the child is taken and false returned. -/
def next (s : LimitExecutor Tuple) : Option Tuple × LimitExecutor Tuple :=
  match s.child.next with
  | (none, child) => (none, { s with child := child })
  | (some t, child) =>
    if 0 < s.limitCount then (some t, ⟨s.limitCount - 1, child⟩)
    else (none, { s with child := child })

end LimitExecutor

/-! ## What a fresh executor yields -/

/-- `Init` of a fresh `SortExecutor` over a child that yields `child`, then at most `fuel` calls
of `Next`: the tuples they yield. -/
def SortExecutor.run (compare : Tuple → Tuple → Except String Bool) (fuel : Nat)
    (child : List Tuple) : Except String (List Tuple) :=
  (SortExecutor.init compare ⟨[]⟩ child).map (drain SortExecutor.next fuel)

/-- `Init` of a fresh `TopNExecutor` with limit `n`, then at most `fuel` calls of `Next`. -/
def TopNExecutor.run (compare : Tuple → Tuple → Except String Bool) (n fuel : Nat)
    (child : List Tuple) : Except String (List Tuple) :=
  (TopNExecutor.init compare n ⟨0, []⟩ child).map (drain TopNExecutor.next fuel)

/-- `Init` of a fresh `LimitExecutor` with limit `n`, then at most `fuel` calls of `Next`. -/
def LimitExecutor.run (n fuel : Nat) (child : List Tuple) : List Tuple :=
  drain LimitExecutor.next fuel (LimitExecutor.init n ⟨0, ⟨child, []⟩⟩)

/-- What a fresh `SortExecutor` yields with one call of `Next` per tuple of the child. -/
def sortYields (compare : Tuple → Tuple → Except String Bool) (child : List Tuple) :
    Except String (List Tuple) :=
  SortExecutor.run compare child.length child

theorem bubbleFrom_length (compare : Tuple → Tuple → Except String Bool) :
    ∀ (tuples : List Tuple) (current : Tuple) {r : List Tuple × Bool},
      bubbleFrom compare current tuples = .ok r → r.1.length = tuples.length + 1
  | [], _, _, h => by cases h; rfl
  | next :: tuples, current, r, h => by
    obtain ⟨keep, -, h⟩ := except_bind_eq_ok.mp h
    cases keep
    · obtain ⟨r', hr', h⟩ := except_bind_eq_ok.mp h
      cases h
      simp [bubbleFrom_length compare tuples current hr']
    · obtain ⟨r', hr', h⟩ := except_bind_eq_ok.mp h
      cases h
      simp [bubbleFrom_length compare tuples next hr']

theorem bubblePass_length (compare : Tuple → Tuple → Except String Bool) {tuples : List Tuple}
    {r : List Tuple × Bool} (h : bubblePass compare tuples = .ok r) :
    r.1.length = tuples.length := by
  cases tuples with
  | nil => cases h; rfl
  | cons current tuples => exact bubbleFrom_length compare tuples current h

/-- `SortTuples` keeps the number of tuples. -/
theorem sortTuples_length (compare : Tuple → Tuple → Except String Bool) :
    ∀ (n : Nat) {tuples r : List Tuple}, sortPasses compare n tuples = .ok r →
      r.length = tuples.length
  | 0, _, _, h => by cases h; rfl
  | n + 1, tuples, r, h => by
    obtain ⟨p, hp, h⟩ := except_bind_eq_ok.mp h
    have hlen : (p.1 ++ tuples.drop (n + 1)).length = tuples.length := by
      rw [List.length_append, bubblePass_length compare hp, List.length_drop, List.length_take]
      omega
    split at h
    · exact (sortTuples_length compare n h).trans hlen
    · cases h; exact hlen

/-- `SortExecutor` pops the back of `tuples_`, one tuple a call, until it is empty. -/
theorem drain_sort :
    ∀ (fuel : Nat) (tuples : List Tuple),
      drain SortExecutor.next fuel ⟨tuples⟩ = tuples.reverse.take fuel
  | 0, _ => rfl
  | fuel + 1, tuples => by
    induction tuples using List.reverseRecOn with
    | nil => rfl
    | append_singleton tuples t _ =>
      have hnext : SortExecutor.next ⟨tuples ++ [t]⟩ = (some t, ⟨tuples⟩) := by
        simp [SortExecutor.next]
      rw [drain, hnext]
      simp [drain_sort fuel tuples]

/-- `TopNExecutor` pops the front of `queue_`, one tuple a call, until it is empty. -/
theorem drain_topN :
    ∀ (fuel limitCount : Nat) (queue : List Tuple),
      drain TopNExecutor.next fuel ⟨limitCount, queue⟩ = queue.take fuel
  | 0, _, _ => rfl
  | _ + 1, _, [] => rfl
  | fuel + 1, limitCount, t :: queue => by
    simp only [drain, TopNExecutor.next, List.head?_cons, List.tail_cons, List.take_succ_cons]
    rw [drain_topN fuel limitCount queue]

/-- `LimitExecutor` yields the child's tuples while `limit_count_` lasts, one a call. -/
theorem drain_limit :
    ∀ (fuel limitCount : Nat) (output rest : List Tuple),
      drain LimitExecutor.next fuel ⟨limitCount, ⟨output, rest⟩⟩ = (rest.take limitCount).take fuel
  | 0, _, _, _ => by simp [drain]
  | _ + 1, _, _, [] => by simp [drain, LimitExecutor.next, Child.next]
  | fuel + 1, 0, output, t :: rest => by simp [drain, LimitExecutor.next, Child.next]
  | fuel + 1, limitCount + 1, output, t :: rest => by
    simp only [drain, LimitExecutor.next, Child.next, Nat.zero_lt_succ, if_true,
      Nat.add_sub_cancel, List.take_succ_cons]
    rw [drain_limit fuel limitCount output rest]

theorem fillQueue_eq :
    ∀ (limitCount : Nat) (sorted queue : List Tuple),
      TopNExecutor.fillQueue limitCount sorted queue =
        (limitCount - min limitCount sorted.length, queue ++ sorted.take limitCount)
  | 0, _, _ => by simp [TopNExecutor.fillQueue]
  | _ + 1, [], _ => by simp [TopNExecutor.fillQueue]
  | limitCount + 1, t :: sorted, queue => by
    rw [TopNExecutor.fillQueue, fillQueue_eq limitCount sorted (queue ++ [t])]
    simp only [List.length_cons, List.take_succ_cons, List.append_assoc, List.singleton_append,
      Prod.mk.injEq, and_true]
    omega

/-- `fuel` calls of `Next` on a fresh `SortExecutor` yield the first `fuel` tuples of the sort. -/
theorem SortExecutor.run_eq (compare : Tuple → Tuple → Except String Bool) (fuel : Nat)
    (child : List Tuple) :
    SortExecutor.run compare fuel child = (sortTuples compare child).map (·.take fuel) := by
  unfold SortExecutor.run SortExecutor.init
  rw [List.nil_append]
  cases sortTuples compare child with
  | error e => rfl
  | ok sorted =>
    show Except.ok (drain SortExecutor.next fuel ⟨sorted.reverse⟩) = Except.ok (sorted.take fuel)
    rw [drain_sort, List.reverse_reverse]

/-- `fuel` calls of `Next` on a fresh `TopNExecutor` yield the first `fuel` of the first `n`
tuples of the sort. -/
theorem TopNExecutor.run_eq (compare : Tuple → Tuple → Except String Bool) (n fuel : Nat)
    (child : List Tuple) :
    TopNExecutor.run compare n fuel child =
      (sortTuples compare child).map fun sorted => (sorted.take n).take fuel := by
  unfold TopNExecutor.run TopNExecutor.init
  cases sortTuples compare child with
  | error e => rfl
  | ok sorted =>
    simp only [bind, Except.bind, pure, Except.pure, Except.map, fillQueue_eq, List.nil_append]
    rw [drain_topN]

theorem LimitExecutor.run_eq (n fuel : Nat) (child : List Tuple) :
    LimitExecutor.run n fuel child = (child.take n).take fuel :=
  drain_limit _ _ _ _

/-- With a call of `Next` for each tuple of the child, or more, a fresh `SortExecutor` yields the
whole sort and then returns false. -/
theorem SortExecutor.run_of_le (compare : Tuple → Tuple → Except String Bool) {fuel : Nat}
    {child : List Tuple} (h : child.length ≤ fuel) :
    SortExecutor.run compare fuel child = sortTuples compare child := by
  rw [SortExecutor.run_eq]
  cases hs : sortTuples compare child with
  | error e => rfl
  | ok sorted =>
    rw [Except.map, List.take_of_length_le (by rw [sortTuples_length compare _ hs]; exact h)]

/-- With a call of `Next` for each tuple of the child, or more, a fresh `TopNExecutor` yields the
first `n` tuples of the sort and then returns false. -/
theorem TopNExecutor.run_of_le (compare : Tuple → Tuple → Except String Bool) (n : Nat)
    {fuel : Nat} {child : List Tuple} (h : child.length ≤ fuel) :
    TopNExecutor.run compare n fuel child = (sortTuples compare child).map (·.take n) := by
  rw [TopNExecutor.run_eq]
  cases hs : sortTuples compare child with
  | error e => rfl
  | ok sorted =>
    have hlen := sortTuples_length compare _ hs
    simp only [Except.map]
    rw [List.take_of_length_le ((List.length_take_le' n sorted).trans (hlen.trans_le h))]

theorem sortYields_eq (compare : Tuple → Tuple → Except String Bool) (child : List Tuple) :
    sortYields compare child = sortTuples compare child :=
  SortExecutor.run_of_le compare le_rfl

/-- With any number of calls of `Next`, a `TopNExecutor` yields what a `LimitExecutor` with the
same limit yields over a `SortExecutor` with the same order-bys, and throws when the
`SortExecutor` throws. -/
theorem topN_run_eq_limit_sort (compare : Tuple → Tuple → Except String Bool) (n fuel : Nat)
    (child : List Tuple) :
    TopNExecutor.run compare n fuel child =
      (SortExecutor.run compare fuel child).map (LimitExecutor.run n fuel) := by
  rw [TopNExecutor.run_eq, SortExecutor.run_eq]
  cases sortTuples compare child with
  | error e => rfl
  | ok sorted =>
    simp only [Except.map, LimitExecutor.run_eq, List.take_take]
    congr 2
    omega

/-! ## Ties -/

/-- Two tuples that no order-by tells apart: on each, their values compare equal, or neither less
nor greater (as when one is NULL). -/
def Ties (cmp : ValueCompare Value) (orderBy : List (OrderByType × (Tuple → Value)))
    (a b : Tuple) : Prop :=
  ∀ p ∈ orderBy, cmp.compareEquals (p.2 a) (p.2 b) = .cmpTrue ∨
    (cmp.compareLessThan (p.2 a) (p.2 b) ≠ .cmpTrue ∧ cmp.compareGreaterThan (p.2 a) (p.2 b) ≠ .cmpTrue)

/-- `CompareTuples` reaches `UNREACHABLE` on every pair that ties. -/
theorem compareTuples_of_ties (cmp : ValueCompare Value) :
    ∀ (orderBy : List (OrderByType × (Tuple → Value))) (a b : Tuple), Ties cmp orderBy a b →
      compareTuples cmp orderBy a b = .error "doesn't support duplicate key"
  | [], _, _, _ => rfl
  | (o, e) :: orderBy, a, b, h => by
    have ih := compareTuples_of_ties cmp orderBy a b fun p hp => h p (List.mem_cons_of_mem _ hp)
    rcases h (o, e) (List.mem_cons_self _ _) with heq | ⟨hlt, hgt⟩
    · simp [compareTuples, heq, ih]
    · unfold compareTuples
      split_ifs <;> simp_all

/-- `SortTuples` throws as soon as its first comparison does. -/
theorem sortTuples_of_error {compare : Tuple → Tuple → Except String Bool} {a b : Tuple}
    {rest : List Tuple} {e : String} (h : compare a b = .error e) :
    sortTuples compare (a :: b :: rest) = .error e := by
  simp [sortTuples, sortPasses, bubblePass, bubbleFrom, h, bind, Except.bind]

theorem bubbleFrom_perm (compare : Tuple → Tuple → Except String Bool) :
    ∀ (tuples : List Tuple) (current : Tuple) {r : List Tuple × Bool},
      bubbleFrom compare current tuples = .ok r → r.1.Perm (current :: tuples)
  | [], _, _, h => by cases h; rfl
  | next :: tuples, current, r, h => by
    obtain ⟨keep, -, h⟩ := except_bind_eq_ok.mp h
    cases keep
    · obtain ⟨r', hr', h⟩ := except_bind_eq_ok.mp h
      cases h
      exact ((bubbleFrom_perm compare tuples current hr').cons next).trans (.swap _ _ _)
    · obtain ⟨r', hr', h⟩ := except_bind_eq_ok.mp h
      cases h
      exact (bubbleFrom_perm compare tuples next hr').cons current

/-- Whenever `SortTuples` returns, it returns a permutation of its input. -/
theorem sortPasses_perm (compare : Tuple → Tuple → Except String Bool) :
    ∀ (n : Nat) {tuples r : List Tuple}, sortPasses compare n tuples = .ok r → r.Perm tuples
  | 0, _, _, h => by cases h; rfl
  | n + 1, tuples, r, h => by
    obtain ⟨p, hp, h⟩ := except_bind_eq_ok.mp h
    have hpass : p.1.Perm (tuples.take (n + 1)) := by
      cases htake : tuples.take (n + 1) with
      | nil => rw [htake] at hp; cases hp; rfl
      | cons c l => rw [htake] at hp; exact bubbleFrom_perm compare l c hp
    have hperm : (p.1 ++ tuples.drop (n + 1)).Perm tuples :=
      (hpass.append_right _).trans (by rw [List.take_append_drop])
    split at h
    · exact (sortPasses_perm compare n h).trans hperm
    · cases h; exact hperm

/-! ## Restarting -/

theorem next_limit_output (s : LimitExecutor Tuple) :
    (LimitExecutor.next s).2.child.output = s.child.output := by
  rcases s with ⟨limitCount, output, _ | ⟨t, rest⟩⟩
  · rfl
  · unfold LimitExecutor.next Child.next
    split_ifs <;> rfl

theorem afterNexts_limit_output :
    ∀ (k : Nat) (s : LimitExecutor Tuple),
      (afterNexts LimitExecutor.next k s).child.output = s.child.output
  | 0, _ => rfl
  | k + 1, s => (afterNexts_limit_output k _).trans (next_limit_output s)

/-- `LimitExecutor` restarts: a second `Init`, after any number of `Next` calls, yields what the
first did. -/
theorem limit_restarts (n fuel k : Nat) (s : LimitExecutor Tuple) :
    drain LimitExecutor.next fuel
        (LimitExecutor.init n (afterNexts LimitExecutor.next k (LimitExecutor.init n s))) =
      drain LimitExecutor.next fuel (LimitExecutor.init n s) := by
  simp only [LimitExecutor.init, Child.init, afterNexts_limit_output]

/-! ## Joins -/

/-- `JoinType`: the two joins the join executors support. -/
inductive JoinType
  | inner
  | left
  deriving DecidableEq, Repr

/-- What a join executor reads of its plan: the join type, the joined tuple of a left and a right
tuple, and the left tuple padded with NULLs. -/
structure JoinPlan (Tuple : Type) where
  joinType : JoinType
  joined : Tuple → Tuple → Tuple
  padded : Tuple → Tuple

/-- `NestedLoopJoinExecutor`: its children, `left_tuple_` and its flags. -/
structure NestedLoopJoinExecutor (Tuple : Type) where
  left : Child Tuple
  right : Child Tuple
  leftTuple : Option Tuple
  isMatched : Bool
  leftIsInitialized : Bool
  rightIsNeedInitialized : Bool
  hasNoTuple : Bool

namespace NestedLoopJoinExecutor

/-- The constructor: `has_no_tuple_` is false; `Init` sets the other flags. -/
def create (left right : List Tuple) : NestedLoopJoinExecutor Tuple :=
  ⟨⟨left, left⟩, ⟨right, right⟩, none, false, false, false, false⟩

/-- `Init()`: both children restart and the flags but `has_no_tuple_` are cleared. -/
def init (s : NestedLoopJoinExecutor Tuple) : NestedLoopJoinExecutor Tuple :=
  { s with left := s.left.init, right := s.right.init, isMatched := false,
           leftIsInitialized := false, rightIsNeedInitialized := false }

/-- The match test at the end of a round of the `while (true)` loop: a non-empty `right_tuple`
that satisfies the predicate is joined to `left_tuple_`. -/
def tryMatch (predicate : Tuple → Tuple → Bool) (plan : JoinPlan Tuple)
    (rightTuple : Option Tuple) (s : NestedLoopJoinExecutor Tuple) :
    Option (Option Tuple × NestedLoopJoinExecutor Tuple) :=
  match s.leftTuple, rightTuple with
  | some l, some r =>
    if predicate l r then some (some (plan.joined l r), { s with isMatched := true }) else none
  | _, _ => none

/-- The `while (true)` loop of `Next`, at most `fuel` rounds, `rightTuple` being the local
`right_tuple`. -/
def loop (predicate : Tuple → Tuple → Bool) (plan : JoinPlan Tuple) :
    Nat → Option Tuple → NestedLoopJoinExecutor Tuple → Option Tuple × NestedLoopJoinExecutor Tuple
  | 0, _, s => (none, s)
  | fuel + 1, rightTuple, s =>
    let continueWith := fun (rightTuple : Option Tuple) (s : NestedLoopJoinExecutor Tuple) =>
      (tryMatch predicate plan rightTuple s).getD (loop predicate plan fuel rightTuple s)
    let r := s.right.next
    if !s.rightIsNeedInitialized && r.1.isSome then
      continueWith r.1 { s with right := r.2 }
    else
      let s := { s with right := if s.rightIsNeedInitialized then s.right else r.2,
                        rightIsNeedInitialized := true }
      if !s.isMatched && plan.joinType = .left then
        (s.leftTuple.map plan.padded, { s with isMatched := true })
      else
        match s.left.next with
        | (none, left) => (none, { s with left := left, hasNoTuple := true })
        | (some l, left) =>
          let r' := s.right.init.next
          continueWith (r'.1.orElse fun _ => rightTuple)
            { s with left := left, leftTuple := some l, isMatched := false, right := r'.2,
                     rightIsNeedInitialized := false }

/-- `Next()`, with `fuel` rounds of its loop. -/
def next (predicate : Tuple → Tuple → Bool) (plan : JoinPlan Tuple) (fuel : Nat)
    (s : NestedLoopJoinExecutor Tuple) : Option Tuple × NestedLoopJoinExecutor Tuple :=
  if s.hasNoTuple then (none, s)
  else if s.leftIsInitialized then loop predicate plan fuel none s
  else match s.left.next with
    | (none, left) => (none, { s with left := left })
    | (some l, left) =>
      loop predicate plan fuel none { s with left := left, leftTuple := some l,
                                             leftIsInitialized := true }

end NestedLoopJoinExecutor

/-- What `HashJoinExecutor` reads of its plan besides the join: the join key of a left and of a
right tuple. -/
structure HashJoinKeys (Tuple Key : Type) where
  leftJoinKey : Tuple → Key
  rightJoinKey : Tuple → Key

/-- `Value::CompareEquals` of two values of one type, whose values are `α` and `none` is NULL:
`CmpNull` when either is NULL. -/
def compareEquals {α : Type} [DecidableEq α] : Option α → Option α → CmpBool
  | some a, some b => if a = b then .cmpTrue else .cmpFalse
  | _, _ => .cmpNull

/-- `JoinKey`: the value of a join key. -/
structure JoinKey (α : Type) where
  value : Option α

/-- `JoinKey::operator==`, by which `right_hash_map_` compares keys: `CompareEquals` gives
`CmpTrue`. -/
instance {α : Type} [DecidableEq α] : BEq (JoinKey α) :=
  ⟨fun a b => compareEquals a.value b.value == .cmpTrue⟩

/-- `HashJoinExecutor`: its children, `right_hash_map_` as its buckets in order, `current_index_`
(`none` for -1), `is_matched_`, `left_tuple_` and `left_join_key_`. -/
structure HashJoinExecutor (Tuple Key : Type) where
  left : Child Tuple
  right : Child Tuple
  rightHashMap : List (Key × List Tuple)
  currentIndex : Option Nat
  isMatched : Bool
  leftTuple : Option Tuple
  leftJoinKey : Option Key

namespace HashJoinExecutor

variable {Key : Type} [BEq Key]

/-- The bucket of `key`, the first whose key `==` it, empty when there is none; `operator[]` reads
an absent key so. -/
def bucket (map : List (Key × List Tuple)) (key : Key) : List Tuple :=
  ((map.find? fun e => key == e.1).map (·.2)).getD []

/-- The insertion of a right tuple into its bucket, or into a new one when no key `==` its key. -/
def insertRight (map : List (Key × List Tuple)) (key : Key) (t : Tuple) : List (Key × List Tuple) :=
  if map.any fun e => key == e.1 then map.map fun e => if key == e.1 then (e.1, e.2 ++ [t]) else e
  else map ++ [(key, [t])]

/-- The constructor: no buckets. -/
def create (left right : List Tuple) : HashJoinExecutor Tuple Key :=
  ⟨⟨left, left⟩, ⟨right, right⟩, [], none, false, none, none⟩

/-- `Init()`: the children restart and every right tuple is added to `right_hash_map_`, which is
not cleared. -/
def init (keys : HashJoinKeys Tuple Key) (s : HashJoinExecutor Tuple Key) :
    HashJoinExecutor Tuple Key :=
  { s with left := s.left.init, right := { s.right with rest := [] }, currentIndex := none,
           isMatched := false,
           rightHashMap := s.right.output.foldl
             (fun map t => insertRight map (keys.rightJoinKey t) t) s.rightHashMap }

/-- The `while (true)` loop of `Next`, at most `fuel` rounds. -/
def next (keys : HashJoinKeys Tuple Key) (plan : JoinPlan Tuple) :
    Nat → HashJoinExecutor Tuple Key → Option Tuple × HashJoinExecutor Tuple Key
  | 0, s => (none, s)
  | fuel + 1, s =>
    let exhausted : Bool := match s.currentIndex, s.leftJoinKey with
      | some i, some key => decide ((bucket s.rightHashMap key).length ≤ i)
      | _, _ => true
    let advanced : Option (HashJoinExecutor Tuple Key) :=
      if exhausted then
        match s.left.next with
        | (none, _) => none
        | (some l, left) =>
          some { s with left := left, leftTuple := some l, currentIndex := some 0,
                        isMatched := false, leftJoinKey := some (keys.leftJoinKey l) }
      else some s
    match advanced with
    | none => (none, { s with left := s.left.next.2 })
    | some s =>
      match s.leftTuple, s.leftJoinKey, s.currentIndex with
      | some l, some key, some i =>
        match (bucket s.rightHashMap key)[i]? with
        | some r =>
          if key == keys.rightJoinKey r then
            (some (plan.joined l r), { s with isMatched := true, currentIndex := some (i + 1) })
          else next keys plan fuel s
        | none =>
          if plan.joinType = .left ∧ !s.isMatched then (some (plan.padded l), s)
          else next keys plan fuel s
      | _, _, _ => next keys plan fuel s

end HashJoinExecutor

/-! ## `AggregationExecutor` -/

/-- What `AggregationExecutor` reads of its plan: the aggregate key and value of a tuple, the
initial aggregate and the combination of an aggregate with a value (`SimpleAggregationHashTable`),
whether there are no group-bys, and the output tuples. -/
structure AggregationPlan (Tuple Key Val Agg : Type) where
  makeAggregateKey : Tuple → Key
  makeAggregateValue : Tuple → Val
  initialAggregateValue : Agg
  combineAggregateValues : Agg → Val → Agg
  groupBysEmpty : Bool
  output : Key → Agg → Tuple

/-- `AggregationExecutor`: its child, the hash table `aht_` as its entries in the order its
iterator visits them, the iterator's position, and `has_no_tuple_`. -/
structure AggregationExecutor (Tuple Key Agg : Type) where
  child : Child Tuple
  aht : List (Key × Agg)
  position : Nat
  hasNoTuple : Bool

namespace AggregationExecutor

variable {Key Val Agg : Type} [DecidableEq Key]

/-- Modelled from the spec: `SimpleAggregationHashTable::InsertCombine(key, value)`, which is
declared in a header that is not in src/.  An absent key starts from the initial aggregate, and a
present one combines its aggregate with the value.  The hash table finds keys with
`AggregateKey`'s `operator==`, which compares the group-by values with `CompareEquals`; the model
takes it to be the `DecidableEq Key` instance, a lawful equality. -/
def insertCombine (plan : AggregationPlan Tuple Key Val Agg) (aht : List (Key × Agg)) (key : Key)
    (value : Val) : List (Key × Agg) :=
  if aht.any (·.1 = key) then
    aht.map fun e => if e.1 = key then (e.1, plan.combineAggregateValues e.2 value) else e
  else aht ++ [(key, plan.combineAggregateValues plan.initialAggregateValue value)]

/-- The constructor: `has_no_tuple_` is true. -/
def create (child : List Tuple) : AggregationExecutor Tuple Key Agg :=
  ⟨⟨child, child⟩, [], 0, true⟩

/-- `Init()`: `aht_` is cleared and filled from the child, and the iterator starts again;
`has_no_tuple_` is kept. -/
def init (plan : AggregationPlan Tuple Key Val Agg) (s : AggregationExecutor Tuple Key Agg) :
    AggregationExecutor Tuple Key Agg :=
  { s with child := { s.child with rest := [] }, position := 0,
           aht := s.child.output.foldl
             (fun aht t => insertCombine plan aht (plan.makeAggregateKey t)
               (plan.makeAggregateValue t)) [] }

/-- `Next()`: the next entry of `aht_`; at the end, one tuple of initial aggregates when the child
gave none and there are no group-bys. -/
def next (plan : AggregationPlan Tuple Key Val Agg) (initialTuple : Tuple)
    (s : AggregationExecutor Tuple Key Agg) : Option Tuple × AggregationExecutor Tuple Key Agg :=
  match s.aht[s.position]? with
  | some (key, agg) => (some (plan.output key agg), { s with position := s.position + 1,
                                                              hasNoTuple := false })
  | none =>
    if s.hasNoTuple && plan.groupBysEmpty then (some initialTuple, { s with hasNoTuple := false })
    else (none, s)

end AggregationExecutor

/-! ## Executors that do not restart -/

/-- Naturals compared as values, none of them NULL. -/
def natCompare : ValueCompare Nat :=
  ⟨fun a b => if a = b then .cmpTrue else .cmpFalse,
   fun a b => if a < b then .cmpTrue else .cmpFalse,
   fun a b => if b < a then .cmpTrue else .cmpFalse⟩

/-- `SortExecutor` over naturals throws, for every order-by list, on every child whose first two
tuples are equal, and on the child 2, 1, 2 under one ascending order-by, whose first pass carries
one 2 onto the other. -/
theorem sortExecutor_throws_on_duplicates :
    (∀ (orderBy : List (OrderByType × (Nat → Nat))) (t : Nat) (rest : List Nat),
      sortYields (compareTuples natCompare orderBy) (t :: t :: rest) =
        .error "doesn't support duplicate key") ∧
    sortYields (compareTuples natCompare [(.asc, id)]) [2, 1, 2] =
      .error "doesn't support duplicate key" := by
  refine ⟨fun orderBy t rest => ?_, rfl⟩
  rw [sortYields_eq]
  exact sortTuples_of_error (compareTuples_of_ties _ _ _ _ fun _ _ => .inl (by simp [natCompare]))

/-- Five executors whose second `Init` does not restart them, over children that restart, with
tuples and keys the naturals.  `SortExecutor` over a child yielding 2 and 1 yields 1, 2; after one
`Next`, `Init` sorts the tuple left in `tuples_` with the child's again, meets two equal tuples and
throws.  `TopNExecutor` with limit 1 yields 1, and after a second `Init` 1 and 1.  An inner
`NestedLoopJoinExecutor` whose predicate always holds, and an inner `HashJoinExecutor` on equal
keys, each over children yielding one tuple, yield one joined tuple, and after being drained and
restarted nothing, and two.  An `AggregationExecutor` without group-bys over an empty child yields
the tuple of initial aggregates, and after a second `Init` nothing. -/
theorem executors_restart_differently :
    (SortExecutor.init (compareTuples natCompare [(.asc, id)]) ⟨[]⟩ [2, 1]).map
        (drain SortExecutor.next 2) = .ok [1, 2] ∧
    (SortExecutor.init (compareTuples natCompare [(.asc, id)]) ⟨[]⟩ [2, 1] >>= fun s =>
        SortExecutor.init (compareTuples natCompare [(.asc, id)])
          (afterNexts SortExecutor.next 1 s) [2, 1]) = .error "doesn't support duplicate key" ∧
    (TopNExecutor.init (compareTuples natCompare [(.asc, id)]) 1 ⟨0, []⟩ [2, 1]).map
        (drain TopNExecutor.next 2) = .ok [1] ∧
    (TopNExecutor.init (compareTuples natCompare [(.asc, id)]) 1 ⟨0, []⟩ [2, 1] >>= fun s =>
        TopNExecutor.init (compareTuples natCompare [(.asc, id)]) 1 s [2, 1]).map
        (drain TopNExecutor.next 2) = .ok [1, 1] ∧
    drain (NestedLoopJoinExecutor.next (fun _ _ => true) ⟨.inner, fun l r => 10 * l + r, id⟩ 8) 3
        (NestedLoopJoinExecutor.create [1] [2]).init = [12] ∧
    drain (NestedLoopJoinExecutor.next (fun _ _ => true) ⟨.inner, fun l r => 10 * l + r, id⟩ 8) 3
        (afterNexts (NestedLoopJoinExecutor.next (fun _ _ => true)
          ⟨.inner, fun l r => 10 * l + r, id⟩ 8) 2 (NestedLoopJoinExecutor.create [1] [2]).init).init
        = [] ∧
    drain (HashJoinExecutor.next ⟨id, id⟩ ⟨.inner, fun l r => 10 * l + r, id⟩ 8) 3
        ((HashJoinExecutor.create [1] [1] : HashJoinExecutor Nat Nat).init ⟨id, id⟩) = [11] ∧
    drain (HashJoinExecutor.next ⟨id, id⟩ ⟨.inner, fun l r => 10 * l + r, id⟩ 8) 3
        ((afterNexts (HashJoinExecutor.next ⟨id, id⟩ ⟨.inner, fun l r => 10 * l + r, id⟩ 8) 2
          ((HashJoinExecutor.create [1] [1] : HashJoinExecutor Nat Nat).init ⟨id, id⟩)).init
            ⟨id, id⟩) = [11, 11] ∧
    drain (AggregationExecutor.next ⟨id, id, 0, (· + ·), true, (· + ·)⟩ 0) 2
        ((AggregationExecutor.create [] : AggregationExecutor Nat Nat Nat).init
          ⟨id, id, 0, (· + ·), true, (· + ·)⟩) = [0] ∧
    drain (AggregationExecutor.next ⟨id, id, 0, (· + ·), true, (· + ·)⟩ 0) 2
        ((afterNexts (AggregationExecutor.next ⟨id, id, 0, (· + ·), true, (· + ·)⟩ 0) 1
          ((AggregationExecutor.create [] : AggregationExecutor Nat Nat Nat).init
            ⟨id, id, 0, (· + ·), true, (· + ·)⟩)).init ⟨id, id, 0, (· + ·), true, (· + ·)⟩) = [] :=
  ⟨rfl, rfl, rfl, rfl, rfl, rfl, rfl, rfl, rfl, rfl⟩

end Bustub
