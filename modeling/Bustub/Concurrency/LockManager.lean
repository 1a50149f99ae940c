import Bustub.Concurrency.WaitsFor

/-!
# The lock manager

The lock manager, whose methods are in `optimizer/sort_limit_as_topn.cpp` after the optimizer
rule, serves `LockTable`, `LockRow`, `UnlockTable` and `UnlockRow` from the threads of the
transactions, and runs the deadlock detector on a thread of its own.  Each call is a few
atomic sections, each under the latch of one queue: the checks of the call and `UpdateLock`; then
one `GrantLock` attempt after another until one returns true, the thread waiting on the queue's
condition variable in between; or, for a waiter that wakes up aborted, the removal of its
request.  `Waiting` records where a thread is in that loop, and `Step` makes one atomic section
of any thread, or one round of the detector, so that the runs of `Step` are the interleavings of
the threads.

A thread may wake up at any time (`notify_all` is called on many paths), so a waiting thread may
take its next `GrantLock` attempt, or its removal when aborted, at any step.

`Transaction` keeps what the lock manager reads and writes of a transaction: its state, its
isolation level and its lock sets; `RID` is a type parameter with decidable equality.  The
`LOG_INFO` calls and the `Log` overloads are left out.  An exception that `TransactionAbortException`
raises after `SetState(ABORTED)` is a step that aborts the transaction; a `std::logic_error`
changes nothing.
-/

namespace Bustub

open LockMode

/-- `TransactionState`. -/
inductive TransactionState
  | growing
  | shrinking
  | committed
  | aborted
  deriving DecidableEq, Repr

/-- `IsolationLevel`. -/
inductive IsolationLevel
  | readUncommitted
  | repeatableRead
  | readCommitted
  deriving DecidableEq, Repr

/-- What the lock manager reads and writes of a `Transaction`: the table lock sets, one per mode,
and the row lock sets, from a table to its rows. -/
structure Transaction (R : Type) where
  state : TransactionState
  isolationLevel : IsolationLevel
  tableLockSet : LockMode → List Nat
  sharedRowLockSet : Nat → List R
  exclusiveRowLockSet : Nat → List R

/-- How a call ends by an exception: `TransactionAbortException`, after the transaction is
aborted, or `std::logic_error`. -/
inductive Exception
  | abort (reason : AbortReason)
  | logicError
  deriving DecidableEq, Repr

/-- Where a thread is in the grant loop of a lock call: `LockTable`, `LockRow`, or `LockRow` on its
`SHRINKING` path, which waits at the table queue. -/
inductive Waiting (R : Type)
  | table (oid : Nat) (lockMode : LockMode)
  | row (oid : Nat) (rid : R) (lockMode : LockMode)
  | rowAtTable (oid : Nat) (rid : R) (lockMode : LockMode)

/-- A lock queue: of a table or of a row. -/
inductive Resource (R : Type)
  | table (oid : Nat)
  | row (rid : R)
  deriving DecidableEq

namespace Waiting

variable {R : Type}

/-- The queue a waiting thread waits at. -/
def resource : Waiting R → Resource R
  | .table oid _ | .rowAtTable oid _ _ => .table oid
  | .row _ rid _ => .row rid

/-- The mode a waiting thread asks for. -/
def lockMode : Waiting R → LockMode
  | .table _ lockMode | .row _ _ lockMode | .rowAtTable _ _ lockMode => lockMode

end Waiting

namespace Transaction

variable {R : Type} [DecidableEq R]

/-- A transaction that has just begun. -/
def begin (isolationLevel : IsolationLevel) : Transaction R :=
  ⟨.growing, isolationLevel, fun _ => [], fun _ => [], fun _ => []⟩

/-- `IsTableSharedLocked` and its siblings, one per mode. -/
def isTableLocked (txn : Transaction R) (lockMode : LockMode) (oid : Nat) : Bool :=
  oid ∈ txn.tableLockSet lockMode

/-- `BookKeeping(txn, lock_mode, oid)`. -/
def bookKeeping (txn : Transaction R) (lockMode : LockMode) (oid : Nat) : Transaction R :=
  { txn with
    tableLockSet := Function.update txn.tableLockSet lockMode
      ((txn.tableLockSet lockMode).insert oid) }

/-- `BookKeepingRemove(txn, lock_mode, oid)`. -/
def bookKeepingRemove (txn : Transaction R) (lockMode : LockMode) (oid : Nat) : Transaction R :=
  { txn with
    tableLockSet := Function.update txn.tableLockSet lockMode
      ((txn.tableLockSet lockMode).erase oid) }

/-- `BookKeeping(txn, lock_mode, oid, rid)`: only S and X rows are recorded. -/
def bookKeepingRow (txn : Transaction R) (lockMode : LockMode) (oid : Nat) (rid : R) :
    Transaction R :=
  match lockMode with
  | .exclusive => { txn with
      exclusiveRowLockSet := Function.update txn.exclusiveRowLockSet oid
        ((txn.exclusiveRowLockSet oid).insert rid) }
  | .shared => { txn with
      sharedRowLockSet := Function.update txn.sharedRowLockSet oid
        ((txn.sharedRowLockSet oid).insert rid) }
  | _ => txn

/-- `BookKeepingRemove(txn, lock_mode, oid, rid)`. -/
def bookKeepingRemoveRow (txn : Transaction R) (lockMode : LockMode) (oid : Nat) (rid : R) :
    Transaction R :=
  match lockMode with
  | .exclusive => { txn with
      exclusiveRowLockSet := Function.update txn.exclusiveRowLockSet oid
        ((txn.exclusiveRowLockSet oid).erase rid) }
  | .shared => { txn with
      sharedRowLockSet := Function.update txn.sharedRowLockSet oid
        ((txn.sharedRowLockSet oid).erase rid) }
  | _ => txn

/-- `UnLockChangeState(txn, lock_mode)`: the unlocks that end the growing phase. -/
def unLockChangeState (txn : Transaction R) (lockMode : LockMode) : Transaction R :=
  if txn.state ≠ .growing then txn
  else if txn.isolationLevel = .repeatableRead ∧
      (lockMode = .shared ∨ lockMode = .exclusive) then { txn with state := .shrinking }
  else if txn.isolationLevel = .readCommitted ∧ lockMode = .exclusive then
    { txn with state := .shrinking }
  else if txn.isolationLevel = .readUncommitted ∧ lockMode = .exclusive then
    { txn with state := .shrinking }
  else txn

/-- `IsTableFit(txn, lock_mode, oid)`: false where it throws.  Only a row X lock is checked; the
check of a row S lock is commented out. -/
def isTableFit (txn : Transaction R) (lockMode : LockMode) (oid : Nat) : Bool :=
  if lockMode = .exclusive then
    txn.isTableLocked .intentionExclusive oid || txn.isTableLocked .exclusive oid ||
      txn.isTableLocked .sharedIntentionExclusive oid
  else true

end Transaction

/-- The `BookKeeping` call that ends a grant loop: of the table for `LockTable`, of the row for
`LockRow` on either path. -/
def Waiting.bookKeeping {R : Type} [DecidableEq R] : Waiting R → Transaction R → Transaction R
  | .table oid lockMode, txn => txn.bookKeeping lockMode oid
  | .row oid rid lockMode, txn | .rowAtTable oid rid lockMode, txn =>
    txn.bookKeepingRow lockMode oid rid

/-- The lock manager: the table and row queues with the keys of their maps, the detector's
graph, the transactions, and where each transaction's thread waits. -/
structure LockManager (R : Type) where
  tableLockMap : Nat → LockRequestQueue
  tableOids : List Nat
  rowLockMap : R → LockRequestQueue
  rowRids : List R
  graph : WaitsForGraph
  txns : Int → Transaction R
  waiting : Int → Option (Waiting R)

namespace LockManager

variable {R : Type}

/-- Changing one transaction. -/
def setTxn (m : LockManager R) (txnId : Int) (txn : Transaction R) : LockManager R :=
  { m with txns := Function.update m.txns txnId txn }

/-- What an abort exception leaves: the transaction `ABORTED`. -/
def abortTxn (m : LockManager R) (txnId : Int) : LockManager R :=
  m.setTxn txnId { m.txns txnId with state := .aborted }

/-- Where a thread waits next. -/
def setWaiting (m : LockManager R) (txnId : Int) (w : Option (Waiting R)) : LockManager R :=
  { m with waiting := Function.update m.waiting txnId w }

/-- The queue of a resource. -/
def queue (m : LockManager R) : Resource R → LockRequestQueue
  | .table oid => m.tableLockMap oid
  | .row rid => m.rowLockMap rid

@[simp] theorem setTxn_queue (m : LockManager R) (t : Int) (txn : Transaction R) :
    (m.setTxn t txn).queue = m.queue := rfl

@[simp] theorem setWaiting_queue (m : LockManager R) (t : Int) (w : Option (Waiting R)) :
    (m.setWaiting t w).queue = m.queue := rfl

@[simp] theorem setTxn_waiting (m : LockManager R) (t : Int) (txn : Transaction R) :
    (m.setTxn t txn).waiting = m.waiting := rfl

@[simp] theorem setWaiting_waiting (m : LockManager R) (t : Int) (w : Option (Waiting R)) :
    (m.setWaiting t w).waiting = Function.update m.waiting t w := rfl

variable [DecidableEq R]

/-- The lock manager before any call, with the transactions begun at the given isolation
levels. -/
def new (isolationLevel : Int → IsolationLevel) : LockManager R :=
  ⟨fun _ => .empty, [], fun _ => .empty, [], .empty, fun t => .begin (isolationLevel t),
    fun _ => none⟩

/-- Setting a queue of `table_lock_map_`; its key is added as `GetLRQueuePtr` does. -/
def setTableQueue (m : LockManager R) (oid : Nat) (q : LockRequestQueue) : LockManager R :=
  { m with
    tableLockMap := Function.update m.tableLockMap oid q
    tableOids := m.tableOids.insert oid }

/-- Setting a queue of `row_lock_map_`. -/
def setRowQueue (m : LockManager R) (rid : R) (q : LockRequestQueue) : LockManager R :=
  { m with
    rowLockMap := Function.update m.rowLockMap rid q
    rowRids := m.rowRids.insert rid }

/-- Setting the queue of a resource. -/
def setQueue (m : LockManager R) : Resource R → LockRequestQueue → LockManager R
  | .table oid, q => m.setTableQueue oid q
  | .row rid, q => m.setRowQueue rid q

/-! ## The calls -/

/-- `UpdateLock(txn, lock_mode, oid)`: an upgrade removes the old mode from the table lock
set. -/
def updateLock (m : LockManager R) (txnId : Int) (lockMode : LockMode) (oid : Nat) :
    Except Exception (LockManager R) :=
  match (m.tableLockMap oid).updateLock txnId lockMode oid with
  | .error reason => .error (.abort reason)
  | .ok (none, q) => .ok (m.setTableQueue oid q)
  | .ok (some old, q) => .ok ((m.setTableQueue oid q).setTxn txnId
      ((m.txns txnId).bookKeepingRemove old oid))

/-- `UpdateLock(txn, lock_mode, oid, rid)`: an upgrade removes the new mode, not the old one,
from the row lock sets. -/
def updateLockRow (m : LockManager R) (txnId : Int) (lockMode : LockMode) (oid : Nat) (rid : R) :
    Except Exception (LockManager R) :=
  match (m.rowLockMap rid).updateLock txnId lockMode oid with
  | .error reason => .error (.abort reason)
  | .ok (none, q) => .ok (m.setRowQueue rid q)
  | .ok (some _, q) => .ok ((m.setRowQueue rid q).setTxn txnId
      ((m.txns txnId).bookKeepingRemoveRow lockMode oid rid))

/-- The first section of `LockTable(txn, lock_mode, oid)`: the checks of the transaction's state
and isolation level, and `UpdateLock`, after which the thread enters the grant loop. -/
def lockTable (m : LockManager R) (txnId : Int) (lockMode : LockMode) (oid : Nat) :
    Except Exception (LockManager R) :=
  let txn := m.txns txnId
  let enter := fun (m : LockManager R) => m.setWaiting txnId (some (.table oid lockMode))
  if txn.state = .committed ∨ txn.state = .aborted then .error .logicError
  else if txn.state = .growing then
    if txn.isolationLevel = .readUncommitted ∧ (lockMode = .shared ∨
        lockMode = .intentionShared ∨ lockMode = .sharedIntentionExclusive) then
      .error (.abort .lockSharedOnReadUncommitted)
    else (m.updateLock txnId lockMode oid).map enter
  else if txn.isolationLevel = .repeatableRead then .error (.abort .lockOnShrinking)
  else if txn.isolationLevel = .readUncommitted then
    if lockMode = .exclusive ∨ lockMode = .intentionExclusive then .error (.abort .lockOnShrinking)
    else .error (.abort .lockSharedOnReadUncommitted)
  else if lockMode = .shared ∨ lockMode = .intentionShared then
    (m.updateLock txnId lockMode oid).map enter
  else .error (.abort .lockOnShrinking)

/-- The first section of `LockRow(txn, lock_mode, oid, rid)`.  On the `SHRINKING`,
`READ_COMMITTED` path it calls the table overloads of `UpdateLock` and `GrantLock`. -/
def lockRow (m : LockManager R) (txnId : Int) (lockMode : LockMode) (oid : Nat) (rid : R) :
    Except Exception (LockManager R) :=
  let txn := m.txns txnId
  if !txn.isTableFit lockMode oid then .error (.abort .tableLockNotPresent)
  else if lockMode = .intentionShared ∨ lockMode = .intentionExclusive ∨
      lockMode = .sharedIntentionExclusive then .error .logicError
  else if txn.state = .committed ∨ txn.state = .aborted then .error .logicError
  else if txn.state = .growing then
    if txn.isolationLevel = .readUncommitted ∧ lockMode ≠ .exclusive then
      .error (.abort .lockSharedOnReadUncommitted)
    else (m.updateLockRow txnId lockMode oid rid).map
      fun m => m.setWaiting txnId (some (.row oid rid lockMode))
  else if txn.isolationLevel = .repeatableRead then .error (.abort .lockOnShrinking)
  else if txn.isolationLevel = .readUncommitted then
    if lockMode = .exclusive then .error (.abort .lockOnShrinking)
    else .error (.abort .lockSharedOnReadUncommitted)
  else if lockMode = .shared then
    (m.updateLock txnId lockMode oid).map
      fun m => m.setWaiting txnId (some (.rowAtTable oid rid lockMode))
  else .error (.abort .lockOnShrinking)

/-- One attempt of a grant loop: `GrantLock` on the queue the thread waits at, and when it
returns true, `BookKeeping` and the end of the call. -/
def grant (m : LockManager R) (txnId : Int) (w : Waiting R) : LockManager R :=
  let r := (m.queue w.resource).grantLock txnId w.lockMode
  let m := m.setQueue w.resource r.2
  if r.1 then (m.setTxn txnId (w.bookKeeping (m.txns txnId))).setWaiting txnId none else m

/-- What a waiter that wakes up aborted does: it removes its request and the call returns false;
when it finds none, it goes on with the grant loop. -/
def abortWaiting (m : LockManager R) (txnId : Int) (w : Waiting R) : LockManager R :=
  let r := (m.queue w.resource).abortWaiting txnId
  let m := m.setQueue w.resource r.2
  if r.1 then m.setWaiting txnId none else m

/-- `UnlockTable(txn, oid)`: refused while the transaction holds rows of the table. -/
def unlockTable (m : LockManager R) (txnId : Int) (oid : Nat) : Except Exception (LockManager R) :=
  let txn := m.txns txnId
  if txn.exclusiveRowLockSet oid ≠ [] ∨ txn.sharedRowLockSet oid ≠ [] then
    .error (.abort .tableUnlockedBeforeUnlockingRows)
  else match (m.tableLockMap oid).unlockRequest txnId with
    | none => .error (.abort .attemptedUnlockButNoLockHeld)
    | some (lockMode, q) =>
      .ok ((m.setTableQueue oid q).setTxn txnId
        ((txn.unLockChangeState lockMode).bookKeepingRemove lockMode oid))

/-- `UnlockRow(txn, oid, rid)`. -/
def unlockRow (m : LockManager R) (txnId : Int) (oid : Nat) (rid : R) :
    Except Exception (LockManager R) :=
  match (m.rowLockMap rid).unlockRequest txnId with
  | none => .error (.abort .attemptedUnlockButNoLockHeld)
  | some (lockMode, q) =>
    .ok ((m.setRowQueue rid q).setTxn txnId
      (((m.txns txnId).unLockChangeState lockMode).bookKeepingRemoveRow lockMode oid rid))

/-! ## The detector -/

/-- Aborting victims while `HasCycle` finds one, at most `fuel` times. -/
def abortVictims : Nat → LockManager R → LockManager R
  | 0, m => m
  | fuel + 1, m =>
    match m.graph.hasCycle with
    | none => m
    | some (v, g) => abortVictims fuel { m.abortTxn v with graph := g.removeTxn v }

/-- The waits-for graph after the first part of a round: the edges of every table queue, then
of every row queue, added to the graph of earlier rounds. -/
def buildGraph (m : LockManager R) : WaitsForGraph :=
  m.rowRids.foldl (fun g rid => addRowEdges g (m.rowLockMap rid))
    (m.tableOids.foldl (fun g oid => addTableEdges g (m.tableLockMap oid)) m.graph)

/-- One round of the loop of `RunCycleDetection`. -/
def runCycleDetection (m : LockManager R) : LockManager R :=
  let g := m.buildGraph
  abortVictims (g.edgeCount + 1) { m with graph := g }

/-! ## What each call does -/

@[simp] theorem setTableQueue_queue (m : LockManager R) (oid : Nat) (q : LockRequestQueue) :
    (m.setTableQueue oid q).queue = Function.update m.queue (.table oid) q := by
  funext k; cases k <;> simp [queue, setTableQueue, Function.update_apply]

@[simp] theorem setRowQueue_queue (m : LockManager R) (rid : R) (q : LockRequestQueue) :
    (m.setRowQueue rid q).queue = Function.update m.queue (.row rid) q := by
  funext k; cases k <;> simp [queue, setRowQueue, Function.update_apply]

@[simp] theorem setQueue_queue (m : LockManager R) (k : Resource R) (q : LockRequestQueue) :
    (m.setQueue k q).queue = Function.update m.queue k q := by
  cases k <;> simp [setQueue]

@[simp] theorem setQueue_waiting (m : LockManager R) (k : Resource R) (q : LockRequestQueue) :
    (m.setQueue k q).waiting = m.waiting := by
  cases k <;> rfl

@[simp] theorem setQueue_txns (m : LockManager R) (k : Resource R) (q : LockRequestQueue) :
    (m.setQueue k q).txns = m.txns := by
  cases k <;> rfl

omit [DecidableEq R] in
@[simp] theorem setTxn_txns (m : LockManager R) (t : Int) (txn : Transaction R) :
    (m.setTxn t txn).txns = Function.update m.txns t txn := rfl

omit [DecidableEq R] in
@[simp] theorem setWaiting_txns (m : LockManager R) (t : Int) (w : Option (Waiting R)) :
    (m.setWaiting t w).txns = m.txns := rfl

omit [DecidableEq R] in
@[simp] theorem setTableQueue_txns (m : LockManager R) (oid : Nat) (q : LockRequestQueue) :
    (m.setTableQueue oid q).txns = m.txns := rfl

@[simp] theorem setRowQueue_txns (m : LockManager R) (rid : R) (q : LockRequestQueue) :
    (m.setRowQueue rid q).txns = m.txns := rfl

omit [DecidableEq R] in
@[simp] theorem setTableQueue_waiting (m : LockManager R) (oid : Nat) (q : LockRequestQueue) :
    (m.setTableQueue oid q).waiting = m.waiting := rfl

@[simp] theorem setRowQueue_waiting (m : LockManager R) (rid : R) (q : LockRequestQueue) :
    (m.setRowQueue rid q).waiting = m.waiting := rfl

variable {m m' : LockManager R} {t : Int} {lockMode : LockMode} {oid : Nat} {rid : R}

omit [DecidableEq R] in
/-- Inversion of the table `UpdateLock`. -/
theorem updateLock_ok (h : m.updateLock t lockMode oid = .ok m') :
    ∃ old q, (m.tableLockMap oid).updateLock t lockMode oid = .ok (old, q) ∧
      m' = (m.setTableQueue oid q).setTxn t
        (old.elim (m.txns t) fun o => (m.txns t).bookKeepingRemove o oid) := by
  unfold updateLock at h
  split at h
  · cases h
  · rename_i q hq
    cases h
    refine ⟨none, q, hq, ?_⟩
    simp [setTxn, setTableQueue]
  · rename_i o q hq
    cases h
    exact ⟨some o, q, hq, rfl⟩

/-- Inversion of the row `UpdateLock`. -/
theorem updateLockRow_ok (h : m.updateLockRow t lockMode oid rid = .ok m') :
    ∃ old q, (m.rowLockMap rid).updateLock t lockMode oid = .ok (old, q) ∧
      m' = (m.setRowQueue rid q).setTxn t
        (old.elim (m.txns t) fun _ => (m.txns t).bookKeepingRemoveRow lockMode oid rid) := by
  unfold updateLockRow at h
  split at h
  · cases h
  · rename_i q hq
    cases h
    refine ⟨none, q, hq, ?_⟩
    simp [setTxn, setRowQueue]
  · rename_i o q hq
    cases h
    exact ⟨some o, q, hq, rfl⟩

omit [DecidableEq R] in
/-- Inversion of `LockTable`'s first section. -/
theorem lockTable_ok (h : m.lockTable t lockMode oid = .ok m') :
    ∃ m₁, m.updateLock t lockMode oid = .ok m₁ ∧
      m' = m₁.setWaiting t (some (.table oid lockMode)) := by
  unfold lockTable at h
  dsimp only at h
  split_ifs at h
  all_goals exact (except_map_eq_ok.mp h).imp fun _ h₁ => ⟨h₁.1, h₁.2.symm⟩

/-- Inversion of `LockRow`'s first section: the row path, or the table path of `SHRINKING`,
`READ_COMMITTED` transactions asking for S. -/
theorem lockRow_ok (h : m.lockRow t lockMode oid rid = .ok m') :
    (m.txns t).isTableFit lockMode oid = true ∧
    ((∃ m₁, m.updateLockRow t lockMode oid rid = .ok m₁ ∧
      m' = m₁.setWaiting t (some (.row oid rid lockMode))) ∨
    (∃ m₁, m.updateLock t lockMode oid = .ok m₁ ∧
      m' = m₁.setWaiting t (some (.rowAtTable oid rid lockMode)) ∧ lockMode = .shared)) := by
  unfold lockRow at h
  dsimp only at h
  split_ifs at h with hfit
  · exact ⟨by simpa using hfit,
      .inl ((except_map_eq_ok.mp h).imp fun _ h₁ => ⟨h₁.1, h₁.2.symm⟩)⟩
  · exact ⟨by simpa using hfit,
      .inr ((except_map_eq_ok.mp h).imp fun _ h₁ => ⟨h₁.1, h₁.2.symm, by assumption⟩)⟩

/-- Inversion of `UnlockTable`. -/
theorem unlockTable_ok (h : m.unlockTable t oid = .ok m') :
    (m.txns t).exclusiveRowLockSet oid = [] ∧ (m.txns t).sharedRowLockSet oid = [] ∧
    ∃ mode q, (m.tableLockMap oid).unlockRequest t = some (mode, q) ∧
      m' = (m.setTableQueue oid q).setTxn t
        (((m.txns t).unLockChangeState mode).bookKeepingRemove mode oid) := by
  unfold unlockTable at h
  dsimp only at h
  split_ifs at h with hrows
  push_neg at hrows
  split at h
  · cases h
  · rename_i mode q hq
    cases h
    exact ⟨hrows.1, hrows.2, mode, q, hq, rfl⟩

/-- Inversion of `UnlockRow`. -/
theorem unlockRow_ok (h : m.unlockRow t oid rid = .ok m') :
    ∃ mode q, (m.rowLockMap rid).unlockRequest t = some (mode, q) ∧
      m' = (m.setRowQueue rid q).setTxn t
        (((m.txns t).unLockChangeState mode).bookKeepingRemoveRow mode oid rid) := by
  unfold unlockRow at h
  split at h
  · cases h
  · rename_i mode q hq
    cases h
    exact ⟨mode, q, hq, rfl⟩

omit [DecidableEq R] in
theorem update_none_eq_some {f : Int → Option (Waiting R)} {w : Waiting R} {u : Int}
    (h : Function.update f t none u = some w) : f u = some w := by
  by_cases hu : u = t
  · subst hu; simp at h
  · rwa [Function.update_noteq hu] at h

/-- A grant attempt whose `GrantLock` returns false changes only the queue. -/
theorem grant_of_false {w : Waiting R}
    (h : ((m.queue w.resource).grantLock t w.lockMode).1 = false) :
    m.grant t w = m.setQueue w.resource ((m.queue w.resource).grantLock t w.lockMode).2 := by
  simp [grant, h]

/-- A grant attempt whose `GrantLock` returns true also records the lock and ends the wait. -/
theorem grant_of_true {w : Waiting R}
    (h : ((m.queue w.resource).grantLock t w.lockMode).1 = true) :
    m.grant t w = ((m.setQueue w.resource ((m.queue w.resource).grantLock t w.lockMode).2).setTxn t
      (w.bookKeeping (m.txns t))).setWaiting t none := by
  simp [grant, h]

/-- A grant attempt changes the queue the thread waits at by `GrantLock`, and no thread starts to
wait. -/
theorem grant_eq (m : LockManager R) (t : Int) (w : Waiting R) :
    (m.grant t w).queue =
      Function.update m.queue w.resource ((m.queue w.resource).grantLock t w.lockMode).2 ∧
    ∀ u w', (m.grant t w).waiting u = some w' → m.waiting u = some w' := by
  cases h : ((m.queue w.resource).grantLock t w.lockMode).1
  · rw [grant_of_false h]
    exact ⟨by simp, fun _ _ => by simp⟩
  · rw [grant_of_true h]
    exact ⟨by simp, fun _ _ hu => update_none_eq_some (by simpa using hu)⟩

/-- The removal of an aborted waiter's request changes the queue it waits at by `AbortWaiting`, and
no thread starts to wait. -/
theorem abortWaiting_eq (m : LockManager R) (t : Int) (w : Waiting R) :
    (m.abortWaiting t w).queue =
      Function.update m.queue w.resource ((m.queue w.resource).abortWaiting t).2 ∧
    ∀ u w', (m.abortWaiting t w).waiting u = some w' → m.waiting u = some w' := by
  unfold abortWaiting
  dsimp only
  split_ifs
  · exact ⟨by simp, fun _ _ hu => update_none_eq_some (by simpa using hu)⟩
  · exact ⟨by simp, fun _ _ => by simp⟩

omit [DecidableEq R] in
/-- A round of the detector changes only the graph and the states of transactions. -/
theorem abortVictims_queue (fuel : Nat) (m : LockManager R) :
    (abortVictims fuel m).queue = m.queue ∧ (abortVictims fuel m).waiting = m.waiting := by
  induction fuel generalizing m with
  | zero => exact ⟨rfl, rfl⟩
  | succ fuel ih =>
    unfold abortVictims
    split
    · exact ⟨rfl, rfl⟩
    · exact ih _

omit [DecidableEq R] in
theorem runCycleDetection_queue (m : LockManager R) :
    m.runCycleDetection.queue = m.queue ∧ m.runCycleDetection.waiting = m.waiting :=
  abortVictims_queue _ _

/-! ## Runs -/

/-- One atomic section of a lock call by a transaction that `mayAct` allows. -/
inductive Call (mayAct : Transaction R → Prop) : LockManager R → LockManager R → Prop
  | lockTable {m m' : LockManager R} (txnId : Int) (lockMode : LockMode) (oid : Nat) :
      m.waiting txnId = none → mayAct (m.txns txnId) → m.lockTable txnId lockMode oid = .ok m' →
      Call mayAct m m'
  | lockRow {m m' : LockManager R} (txnId : Int) (lockMode : LockMode) (oid : Nat) (rid : R) :
      m.waiting txnId = none → mayAct (m.txns txnId) →
      m.lockRow txnId lockMode oid rid = .ok m' → Call mayAct m m'
  | grant {m : LockManager R} (txnId : Int) (w : Waiting R) :
      m.waiting txnId = some w → mayAct (m.txns txnId) → Call mayAct m (m.grant txnId w)
  | unlockTable {m m' : LockManager R} (txnId : Int) (oid : Nat) :
      m.waiting txnId = none → mayAct (m.txns txnId) → m.unlockTable txnId oid = .ok m' →
      Call mayAct m m'
  | unlockRow {m m' : LockManager R} (txnId : Int) (oid : Nat) (rid : R) :
      m.waiting txnId = none → mayAct (m.txns txnId) → m.unlockRow txnId oid rid = .ok m' →
      Call mayAct m m'
  | lockTableAbort {m : LockManager R} (txnId : Int) (lockMode : LockMode) (oid : Nat)
      (reason : AbortReason) :
      m.waiting txnId = none → mayAct (m.txns txnId) →
      m.lockTable txnId lockMode oid = .error (.abort reason) → Call mayAct m (m.abortTxn txnId)
  | lockRowAbort {m : LockManager R} (txnId : Int) (lockMode : LockMode) (oid : Nat) (rid : R)
      (reason : AbortReason) :
      m.waiting txnId = none → mayAct (m.txns txnId) →
      m.lockRow txnId lockMode oid rid = .error (.abort reason) → Call mayAct m (m.abortTxn txnId)
  | unlockTableAbort {m : LockManager R} (txnId : Int) (oid : Nat) (reason : AbortReason) :
      m.waiting txnId = none → mayAct (m.txns txnId) →
      m.unlockTable txnId oid = .error (.abort reason) → Call mayAct m (m.abortTxn txnId)
  | unlockRowAbort {m : LockManager R} (txnId : Int) (oid : Nat) (rid : R) (reason : AbortReason) :
      m.waiting txnId = none → mayAct (m.txns txnId) →
      m.unlockRow txnId oid rid = .error (.abort reason) → Call mayAct m (m.abortTxn txnId)

/-- One atomic section of any thread: a lock call's, the removal of an aborted waiter's request,
or a round of the detector. -/
inductive Step : LockManager R → LockManager R → Prop
  | call {m m' : LockManager R} : Call (fun _ => True) m m' → Step m m'
  | abortWaiting {m : LockManager R} (txnId : Int) (w : Waiting R) :
      m.waiting txnId = some w → (m.txns txnId).state = .aborted → Step m (m.abortWaiting txnId w)
  | runCycleDetection {m : LockManager R} : Step m m.runCycleDetection

/-- The states of the lock manager that its threads reach from `new`. -/
def Reachable (isolationLevel : Int → IsolationLevel) (m : LockManager R) : Prop :=
  Relation.ReflTransGen Step (new isolationLevel) m

end LockManager

end Bustub
