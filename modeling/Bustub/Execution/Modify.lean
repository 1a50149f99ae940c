import Bustub.Concurrency.LockRequestQueue

/-!
# Delete and Update: the calls they make

`DeleteExecutor` and `UpdateExecutor` write rows of their table through the table heap and take
locks through the lock manager.  This module models each by the calls it makes, in order.  An
`Event` is one call; a run returns its outcome and the trace of its calls, each with the answer
it got.  The lock manager and the table heap are a parameter, `Env`, that answers each call from
the calls made before it, so one run of the model stands for every run of the executor whose
lock manager and table heap gave the same answers, whatever other transactions did meanwhile.

The child is the list of rids its `Next` yields; it makes no calls of its own.  What the
executors do with tuple contents (the index entries, the `IndexWriteSet`, the updated tuple) is
left out: it makes no call to the lock manager or the table heap.

`WritesLocked` is the discipline a writer keeps under two-phase locking: every `MarkDelete` and
`UpdateTuple` of a row comes after a granted X lock on the row and a granted IX, SIX or X lock on
its table.  `DeleteExecutor::Next` takes the row's lock after marking it deleted
(`deleteRun_trace`), and `UpdateExecutor` takes no lock at all (`updateRun_no_locks`), so neither
keeps it (`deleteRun_not_writesLocked`, `updateRun_not_writesLocked`).
-/

namespace Bustub

/-- A call to the lock manager or to the table heap of table `oid`. -/
inductive Event (Oid Rid : Type) where
  | lockTable (mode : LockMode) (oid : Oid)
  | lockRow (mode : LockMode) (oid : Oid) (rid : Rid)
  | getTuple (oid : Oid) (rid : Rid)
  | markDelete (oid : Oid) (rid : Rid)
  | updateTuple (oid : Oid) (rid : Rid)
  deriving DecidableEq

/-- The answer to a call: its result, or a `TransactionAbortException` with its info, which only
the lock manager throws. -/
inductive Answer where
  | result (ok : Bool)
  | abort (info : String)
  deriving DecidableEq

variable {Oid Rid : Type}

namespace Event

/-- The row a call writes: `MarkDelete` and `UpdateTuple` write one. -/
def writtenRow : Event Oid Rid → Option (Oid × Rid)
  | markDelete oid rid => some (oid, rid)
  | updateTuple oid rid => some (oid, rid)
  | _ => none

/-- Whether a call is made to the lock manager. -/
def isLock : Event Oid Rid → Bool
  | lockTable .. => true
  | lockRow .. => true
  | _ => false

end Event

/-- The lock manager and the table heap, each answering a call from the calls made before it. -/
structure Env (Oid Rid : Type) where
  lockManager : List (Event Oid Rid × Answer) → Event Oid Rid → Answer
  tableHeap : List (Event Oid Rid × Answer) → Event Oid Rid → Bool

/-- What a run of an executor call returns, with the calls made so far. -/
structure Run (Oid Rid α : Type) where
  outcome : Except String α
  trace : List (Event Oid Rid × Answer)

/-- The `try` around a lock call in the executors: a refused lock and an aborted transaction
both throw an `ExecutionException`. -/
def lockOutcome : Answer → Except String Unit
  | .result true => .ok ()
  | .result false => .error "executor fail"
  | .abort info => .error (info ++ " executor fail")

namespace Env

variable (env : Env Oid Rid)

/-- A call to the lock manager, appended to the trace. -/
def lock (trace : List (Event Oid Rid × Answer)) (e : Event Oid Rid) :
    Except String Unit × List (Event Oid Rid × Answer) :=
  (lockOutcome (env.lockManager trace e), trace ++ [(e, env.lockManager trace e)])

/-- A call to the table heap, appended to the trace. -/
def heap (trace : List (Event Oid Rid × Answer)) (e : Event Oid Rid) :
    Bool × List (Event Oid Rid × Answer) :=
  (env.tableHeap trace e, trace ++ [(e, .result (env.tableHeap trace e))])

end Env

/-! ## `DeleteExecutor` -/

section Executors

variable (env : Env Oid Rid) (oid : Oid)

/-- `DeleteExecutor::Init()`: the child is restarted and an IX lock taken on the table. -/
def deleteInit (trace : List (Event Oid Rid × Answer)) : Run Oid Rid Unit :=
  let (outcome, trace) := env.lock trace (.lockTable .intentionExclusive oid)
  ⟨outcome, trace⟩

/-- The loop of `DeleteExecutor::Next()` over the rids the child yields, counting them: each row
is marked deleted and then X-locked, and a `MarkDelete` that fails ends the loop. -/
def deleteLoop : List Rid → Nat → List (Event Oid Rid × Answer) → Run Oid Rid Nat
  | [], count, trace => ⟨.ok count, trace⟩
  | rid :: rids, count, trace =>
    let (deleted, trace) := env.heap trace (.markDelete oid rid)
    if deleted then
      let (locked, trace) := env.lock trace (.lockRow .exclusive oid rid)
      match locked with
      | .ok () => deleteLoop rids (count + 1) trace
      | .error e => ⟨.error e, trace⟩
    else ⟨.ok count, trace⟩

/-- `DeleteExecutor::Next()`: false once `has_no_tuple_` is set, and otherwise the count of the
rows deleted. -/
def deleteNext (hasNoTuple : Bool) (rids : List Rid) (trace : List (Event Oid Rid × Answer)) :
    Run Oid Rid (Option Nat) :=
  if hasNoTuple then ⟨.ok none, trace⟩
  else
    let r := deleteLoop env oid rids 0 trace
    ⟨r.outcome.map some, r.trace⟩

/-- `Init` and the first `Next` of a `DeleteExecutor` on table `oid` over a child that yields
`rids`. -/
def deleteRun (rids : List Rid) : Run Oid Rid (Option Nat) :=
  let init := deleteInit env oid []
  match init.outcome with
  | .ok () => deleteNext env oid false rids init.trace
  | .error e => ⟨.error e, init.trace⟩

/-! ## `UpdateExecutor` -/

/-- The loop of `UpdateExecutor::Next()`, counting the rows: each row is read with `GetTuple` and
written with `UpdateTuple`; if either fails, `Next` returns false. -/
def updateLoop : List Rid → Nat → List (Event Oid Rid × Answer) → Option Nat × List (Event Oid Rid × Answer)
  | [], count, trace => (some count, trace)
  | rid :: rids, count, trace =>
    let (found, trace) := env.heap trace (.getTuple oid rid)
    if found then
      let (updated, trace) := env.heap trace (.updateTuple oid rid)
      if updated then updateLoop rids (count + 1) trace else (none, trace)
    else (none, trace)

/-- `Init` (which only restarts the child) and the first `Next` of an `UpdateExecutor` on table
`oid` over a child that yields `rids`. -/
def updateRun (rids : List Rid) : Run Oid Rid (Option Nat) :=
  let r := updateLoop env oid rids 0 []
  ⟨.ok r.1, r.2⟩

end Executors

/-! ## The locking discipline -/

/-- The calls `calls` have taken the locks a write of row `rid` of table `oid` needs: a granted
X lock on the row, and a granted IX, SIX or X lock on the table. -/
def HoldsWriteLocks (calls : List (Event Oid Rid × Answer)) (oid : Oid) (rid : Rid) : Prop :=
  (Event.lockRow .exclusive oid rid, Answer.result true) ∈ calls ∧
    ∃ mode ∈ [LockMode.intentionExclusive, .sharedIntentionExclusive, .exclusive],
      (Event.lockTable mode oid, Answer.result true) ∈ calls

instance [DecidableEq Oid] [DecidableEq Rid] (calls : List (Event Oid Rid × Answer)) (oid : Oid)
    (rid : Rid) : Decidable (HoldsWriteLocks calls oid rid) :=
  inferInstanceAs (Decidable (_ ∧ _))

/-- Every write of a row in `trace` comes after calls that took the locks it needs. -/
def WritesLocked (trace : List (Event Oid Rid × Answer)) : Prop :=
  ∀ i : Fin trace.length, ∀ row ∈ (trace.get i).1.writtenRow,
    HoldsWriteLocks (trace.take i) row.1 row.2

instance [DecidableEq Oid] [DecidableEq Rid] (trace : List (Event Oid Rid × Answer)) :
    Decidable (WritesLocked trace) :=
  inferInstanceAs (Decidable (∀ _, _))

/-- A trace whose first write is made before any granted X lock on its row breaks the
discipline. -/
theorem not_writesLocked_of_write {pre post : List (Event Oid Rid × Answer)}
    {e : Event Oid Rid} {answer : Answer} {oid : Oid} {rid : Rid}
    (hwrite : e.writtenRow = some (oid, rid))
    (hpre : (Event.lockRow .exclusive oid rid, Answer.result true) ∉ pre) :
    ¬ WritesLocked (pre ++ (e, answer) :: post) := by
  intro h
  have hi : pre.length < (pre ++ (e, answer) :: post).length := by simp
  have := h ⟨pre.length, hi⟩ (oid, rid)
  simp only [List.get_eq_getElem, List.getElem_append_right (Nat.le_refl _), Nat.sub_self,
    List.getElem_cons_zero, List.take_left, Option.mem_def] at this
  exact hpre (this hwrite).1

/-! ## The calls of every run -/

section Runs

variable (env : Env Oid Rid) (oid : Oid)

/-- The calls `DeleteExecutor::Next` makes over `rids` when every one succeeds: for each row,
`MarkDelete` and then `LockRow(EXCLUSIVE)`. -/
def deleteSchedule (rids : List Rid) : List (Event Oid Rid) :=
  rids.flatMap fun rid => [.markDelete oid rid, .lockRow .exclusive oid rid]

/-- The calls `UpdateExecutor::Next` makes over `rids` when every one succeeds: for each row,
`GetTuple` and then `UpdateTuple`. -/
def updateSchedule (rids : List Rid) : List (Event Oid Rid) :=
  rids.flatMap fun rid => [.getTuple oid rid, .updateTuple oid rid]

/-- Every run of the loop of `DeleteExecutor::Next` makes the calls of its schedule, up to the
one that fails. -/
theorem deleteLoop_trace : ∀ (rids : List Rid) (count : Nat) (trace : List (Event Oid Rid × Answer)),
    ∃ calls, (deleteLoop env oid rids count trace).trace = trace ++ calls ∧
      calls.map Prod.fst <+: deleteSchedule oid rids
  | [], _, _ => ⟨[], by simp [deleteLoop]⟩
  | rid :: rids, count, trace => by
    simp only [deleteLoop, Env.heap, Env.lock]
    split
    · split
      · obtain ⟨calls, htrace, hcalls⟩ := deleteLoop_trace rids (count + 1) _
        rw [htrace]
        exact ⟨_, (List.append_assoc _ _ _).trans (List.append_assoc _ _ _),
          by simpa [deleteSchedule] using hcalls⟩
      · exact ⟨_, List.append_assoc _ _ _, by simp [deleteSchedule]⟩
    · exact ⟨_, rfl, by simp [deleteSchedule]⟩

/-- Every run of the loop of `UpdateExecutor::Next` makes the calls of its schedule, up to the
one that fails. -/
theorem updateLoop_trace : ∀ (rids : List Rid) (count : Nat) (trace : List (Event Oid Rid × Answer)),
    ∃ calls, (updateLoop env oid rids count trace).2 = trace ++ calls ∧
      calls.map Prod.fst <+: updateSchedule oid rids
  | [], _, _ => ⟨[], by simp [updateLoop]⟩
  | rid :: rids, count, trace => by
    simp only [updateLoop, Env.heap]
    split
    · split
      · obtain ⟨calls, htrace, hcalls⟩ := updateLoop_trace rids (count + 1) _
        rw [htrace]
        exact ⟨_, (List.append_assoc _ _ _).trans (List.append_assoc _ _ _),
          by simpa [updateSchedule] using hcalls⟩
      · exact ⟨_, List.append_assoc _ _ _, by simp [updateSchedule]⟩
    · exact ⟨_, rfl, by simp [updateSchedule]⟩

/-- The loop of `DeleteExecutor::Next` marks its first row deleted before any other call. -/
theorem deleteLoop_cons_trace (rid : Rid) (rids : List Rid) (count : Nat)
    (trace : List (Event Oid Rid × Answer)) :
    ∃ post, (deleteLoop env oid (rid :: rids) count trace).trace =
      trace ++ (.markDelete oid rid, .result (env.tableHeap trace (.markDelete oid rid))) :: post := by
  simp only [deleteLoop, Env.heap, Env.lock]
  split
  · split
    · obtain ⟨calls, htrace, -⟩ := deleteLoop_trace env oid rids (count + 1) _
      rw [htrace]
      exact ⟨_, by simp only [List.append_assoc, List.cons_append, List.nil_append]; rfl⟩
    · exact ⟨_, by simp only [List.append_assoc, List.cons_append, List.nil_append]; rfl⟩
  · exact ⟨[], rfl⟩

/-- The loop of `UpdateExecutor::Next` writes its first row right after reading it, when the
read succeeds. -/
theorem updateLoop_cons_trace (rid : Rid) (rids : List Rid) (count : Nat)
    (trace : List (Event Oid Rid × Answer))
    (hfound : env.tableHeap trace (.getTuple oid rid) = true) :
    ∃ post, (updateLoop env oid (rid :: rids) count trace).2 =
      trace ++ (.getTuple oid rid, .result true) :: (.updateTuple oid rid, .result
        (env.tableHeap (trace ++ [(.getTuple oid rid, .result true)]) (.updateTuple oid rid))) :: post := by
  simp only [updateLoop, Env.heap, hfound, if_true]
  split
  · obtain ⟨calls, htrace, -⟩ := updateLoop_trace env oid rids (count + 1) _
    rw [htrace]
    exact ⟨_, by simp only [List.append_assoc, List.cons_append, List.nil_append]; rfl⟩
  · exact ⟨[], by simp only [List.append_assoc, List.cons_append, List.nil_append]⟩

/-- `UpdateExecutor` makes no call to the lock manager, in any run. -/
theorem updateRun_no_locks (rids : List Rid) :
    ∀ c ∈ (updateRun env oid rids).trace, c.1.isLock = false := by
  obtain ⟨calls, htrace, hcalls⟩ := updateLoop_trace env oid rids 0 []
  intro c hc
  rw [updateRun, htrace, List.nil_append] at hc
  obtain ⟨rid, -, hrid⟩ := List.mem_flatMap.mp (hcalls.subset (List.mem_map_of_mem Prod.fst hc))
  simp only [List.mem_cons, List.mem_singleton, List.not_mem_nil, or_false] at hrid
  rcases hrid with h | h <;> rw [h] <;> rfl

/-- If the IX lock on its table is granted, `DeleteExecutor` marks the first row its child yields
deleted before any lock on the row, whatever the lock manager and the table heap answer after. -/
theorem deleteRun_not_writesLocked (rid : Rid) (rids : List Rid)
    (hgranted : env.lockManager [] (.lockTable .intentionExclusive oid) = .result true) :
    ¬ WritesLocked (deleteRun env oid (rid :: rids)).trace := by
  obtain ⟨post, hpost⟩ := deleteLoop_cons_trace env oid rid rids 0
    [(.lockTable .intentionExclusive oid, .result true)]
  have htrace : (deleteRun env oid (rid :: rids)).trace =
      (deleteLoop env oid (rid :: rids) 0 [(.lockTable .intentionExclusive oid, .result true)]).trace := by
    simp only [deleteRun, deleteInit, Env.lock, hgranted, lockOutcome, deleteNext, if_false,
      List.nil_append, Bool.false_eq_true]
  rw [htrace, hpost]
  exact not_writesLocked_of_write rfl (by simp)

/-- The discipline holds for a run of `UpdateExecutor` exactly when the run writes no row: it
takes no lock to write one. -/
theorem updateRun_writesLocked_iff (rids : List Rid) :
    WritesLocked (updateRun env oid rids).trace ↔
      ∀ c ∈ (updateRun env oid rids).trace, c.1.writtenRow = none := by
  constructor
  · intro hlocked c hc
    cases hrow : c.1.writtenRow with
    | none => rfl
    | some row =>
      obtain ⟨pre, post, hsplit⟩ := List.append_of_mem hc
      have hpre : (Event.lockRow .exclusive row.1 row.2, Answer.result true) ∉ pre := fun hmem =>
        absurd (updateRun_no_locks env oid rids _ (hsplit ▸ List.mem_append_left _ hmem))
          (by simp [Event.isLock])
      rw [hsplit] at hlocked
      exact absurd hlocked (not_writesLocked_of_write hrow hpre)
  · intro hnone i row hrow
    rw [hnone _ (List.get_mem _ _ _)] at hrow
    cases hrow

end Runs

/-- A lock manager that grants every lock and a table heap whose every call succeeds, as for a
transaction alone in the system. -/
def Env.grantAll : Env Oid Rid :=
  ⟨fun _ _ => .result true, fun _ _ => true⟩

/-- Over a child that yields one row, with every call answered true, `DELETE` marks the row
deleted before it X-locks it, and `UPDATE` updates it with no lock. -/
theorem dml_writes_without_row_locks :
    (deleteRun (Env.grantAll : Env Nat Nat) 0 [0]).outcome = .ok (some 1) ∧
    (deleteRun (Env.grantAll : Env Nat Nat) 0 [0]).trace =
      [(.lockTable .intentionExclusive 0, .result true), (.markDelete 0 0, .result true),
        (.lockRow .exclusive 0 0, .result true)] ∧
    ¬ WritesLocked (deleteRun (Env.grantAll : Env Nat Nat) 0 [0]).trace ∧
    (updateRun (Env.grantAll : Env Nat Nat) 0 [0]).outcome = .ok (some 1) ∧
    (updateRun (Env.grantAll : Env Nat Nat) 0 [0]).trace =
      [(.getTuple 0 0, .result true), (.updateTuple 0 0, .result true)] ∧
    ¬ WritesLocked (updateRun (Env.grantAll : Env Nat Nat) 0 [0]).trace :=
  ⟨rfl, rfl, by decide, rfl, rfl, by decide⟩

end Bustub
