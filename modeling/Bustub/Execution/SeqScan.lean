import Bustub.Concurrency.LockManager

/-!
# The sequential scan and its row locks

`SeqScanExecutor` takes an IS lock on its table in `Init`, and in each `Next` an S lock on the
row its iterator is at, which it means to release once the row is read.  The model runs the
executor's transaction alone: a lock call is its first section, then its grant loop, and as
nothing else runs the loop is granted at its first attempt or never (`LockManager.callAlone`).

*Granted alone.*  A lock asked for on a queue nobody has used is granted at once, and leaves
every other queue as it was (`LockManager.callAlone_lockTable_empty`,
`LockManager.callAlone_lockRow_empty`).  An unlock of a RID whose queue holds no granted
request of the transaction throws and aborts it (`LockManager.callAlone_unlockRow_not_held`).

*The scan.*  `Next` advances the iterator before it unlocks, so the RID it unlocks is the next
row's, or `End()`'s, which it has not locked.  On every table with a row, at `READ_COMMITTED`
or `REPEATABLE_READ`, `Init` returns and the first `Next` throws, the transaction aborted
(`seqScan_first_next_aborts`).
-/

namespace Bustub

namespace LockRequestQueue

theorem updateLock_empty (t : Int) (mode : LockMode) (oid : Nat) :
    empty.updateLock t mode oid = .ok (none, ⟨[⟨t, mode, oid, false⟩], none⟩) := rfl

/-- The only request of a queue is granted. -/
theorem grantLock_single (t : Int) (mode : LockMode) (oid : Nat) :
    (⟨[⟨t, mode, oid, false⟩], none⟩ : LockRequestQueue).grantLock t mode =
      (true, ⟨[⟨t, mode, oid, true⟩], none⟩) := by
  simp [grantLock, grantedModes, grantPass, isTxn]

end LockRequestQueue

namespace LockManager

variable {R : Type} [DecidableEq R]

/-- How a call of a thread that runs alone ends when it does not return: it throws, or it blocks
for ever in its grant loop. -/
inductive Stop
  | threw (e : Exception)
  | blocked
  deriving DecidableEq

/-- What an exception leaves: an abort exception has aborted the transaction, a
`std::logic_error` changes nothing. -/
def afterThrow (m : LockManager R) (txnId : Int) : Exception → LockManager R
  | .abort _ => m.abortTxn txnId
  | .logicError => m

/-- A call by a thread that runs alone, from the result of its first section.  An exception ends
it; a lock call then runs its grant loop.  Nothing else runs, so every attempt of the loop sees
what the first left: the call returns when the first attempt is granted, and blocks for ever
otherwise. -/
def callAlone (m : LockManager R) (txnId : Int) :
    Except Exception (LockManager R) → LockManager R × Except Stop Unit
  | .error e => (m.afterThrow txnId e, .error (.threw e))
  | .ok m' =>
    match m'.waiting txnId with
    | none => (m', .ok ())
    | some w =>
      let m'' := m'.grant txnId w
      (m'', if (m''.waiting txnId).isNone then .ok () else .error .blocked)

variable {m m' : LockManager R} {t : Int} {oid : Nat} {rid : R}

/-- A lock call whose first section leaves the thread waiting at a queue that holds only its
request returns at the first attempt of its grant loop, changing no other queue. -/
theorem callAlone_single (m' : LockManager R) (oid : Nat) {w : Waiting R} (hw : m'.waiting t = some w)
    (hq : m'.queue w.resource = ⟨[⟨t, w.lockMode, oid, false⟩], none⟩) :
    ∃ m₁, m.callAlone t (.ok m') = (m₁, .ok ()) ∧
      (∀ r, r ≠ w.resource → m₁.queue r = m'.queue r) ∧ m₁.txns t = w.bookKeeping (m'.txns t) := by
  refine ⟨((m'.setQueue w.resource ⟨[⟨t, w.lockMode, oid, true⟩], none⟩).setTxn t
    (w.bookKeeping (m'.txns t))).setWaiting t none, ?_, fun r hr => ?_, ?_⟩
  · simp [callAlone, hw, grant, hq, LockRequestQueue.grantLock_single]
  · simp [grant, hq, LockRequestQueue.grantLock_single, Function.update_noteq hr]
  · simp [grant, hq, LockRequestQueue.grantLock_single]

/-- `LockTable(IS)` by a growing transaction that is not `READ_UNCOMMITTED`, on a table whose
queue is empty, is granted at once. -/
theorem callAlone_lockTable_empty (hstate : (m.txns t).state = .growing)
    (hiso : (m.txns t).isolationLevel ≠ .readUncommitted) (hq : m.queue (.table oid) = .empty) :
    ∃ m₁, m.callAlone t (m.lockTable t .intentionShared oid) = (m₁, .ok ()) ∧
      (∀ r, r ≠ .table oid → m₁.queue r = m.queue r) ∧
      m₁.txns t = (m.txns t).bookKeeping .intentionShared oid := by
  have hq' : m.tableLockMap oid = .empty := hq
  set m' := (m.setTableQueue oid ⟨[⟨t, .intentionShared, oid, false⟩], none⟩).setWaiting t
    (some (.table oid .intentionShared)) with hm'
  have hfirst : m.lockTable t .intentionShared oid = .ok m' := by
    simp [hm', lockTable, hstate, hiso, updateLock, hq', LockRequestQueue.updateLock_empty,
      Except.map]
  obtain ⟨m₁, h, hqueue, htxn⟩ := callAlone_single (m := m) (t := t) m' oid (w := .table oid .intentionShared)
    (by simp [hm']) (by simp [hm', Waiting.resource, Waiting.lockMode])
  refine ⟨m₁, hfirst ▸ h, fun r hr => ?_, by simpa [hm'] using htxn⟩
  simpa [hm', Function.update_noteq hr] using hqueue r hr

/-- `LockRow(S)` by a growing transaction that is not `READ_UNCOMMITTED`, on a row whose queue is
empty, is granted at once. -/
theorem callAlone_lockRow_empty (oid : Nat) (hstate : (m.txns t).state = .growing)
    (hiso : (m.txns t).isolationLevel ≠ .readUncommitted) (hq : m.queue (.row rid) = .empty) :
    ∃ m₁, m.callAlone t (m.lockRow t .shared oid rid) = (m₁, .ok ()) ∧
      (∀ r, r ≠ .row rid → m₁.queue r = m.queue r) ∧
      m₁.txns t = (m.txns t).bookKeepingRow .shared oid rid := by
  have hq' : m.rowLockMap rid = .empty := hq
  set m' := (m.setRowQueue rid ⟨[⟨t, .shared, oid, false⟩], none⟩).setWaiting t
    (some (.row oid rid .shared)) with hm'
  have hfirst : m.lockRow t .shared oid rid = .ok m' := by
    simp [hm', lockRow, Transaction.isTableFit, hstate, hiso, updateLockRow, hq',
      LockRequestQueue.updateLock_empty, Except.map]
  obtain ⟨m₁, h, hqueue, htxn⟩ := callAlone_single (m := m) (t := t) m' oid (w := .row oid rid .shared)
    (by simp [hm']) (by simp [hm', Waiting.resource, Waiting.lockMode])
  refine ⟨m₁, hfirst ▸ h, fun r hr => ?_, by simpa [hm'] using htxn⟩
  simpa [hm', Function.update_noteq hr] using hqueue r hr

/-- `UnlockRow` of a RID whose queue holds no granted request of the transaction throws, and
the transaction is aborted. -/
theorem callAlone_unlockRow_not_held (oid : Nat) (hq : (m.queue (.row rid)).unlockRequest t = none) :
    m.callAlone t (m.unlockRow t oid rid) =
      (m.abortTxn t, .error (.threw (.abort .attemptedUnlockButNoLockHeld))) := by
  have hq' : (m.rowLockMap rid).unlockRequest t = none := hq
  simp [unlockRow, hq', callAlone, afterThrow]

end LockManager

open LockManager

/-- `SeqScanExecutor`: its table's oid and transaction, and `table_iter_` as the rows of the
table heap it has still to visit, each a RID and its tuple, with the RID of `End()`. -/
structure SeqScanExecutor (R Tuple : Type) where
  oid : Nat
  txnId : Int
  tableIter : List (R × Tuple)
  endRid : R

namespace SeqScanExecutor

variable {R Tuple : Type} [DecidableEq R]

/-- `(*table_iter_)->GetRid()`: the RID of the iterator's row, or of `End()`. -/
def iterRid (s : SeqScanExecutor R Tuple) : R := (s.tableIter.head?.map Prod.fst).getD s.endRid

/-- `Init()` by a transaction that runs alone: an IS lock on the table unless the transaction is
`READ_UNCOMMITTED`, then `table_iter_` at the first of the table heap's `rows`. -/
def init (m : LockManager R) (rows : List (R × Tuple)) (s : SeqScanExecutor R Tuple) :
    LockManager R × Except Stop (SeqScanExecutor R Tuple) :=
  let locked := if (m.txns s.txnId).isolationLevel ≠ .readUncommitted then
      m.callAlone s.txnId (m.lockTable s.txnId .intentionShared s.oid)
    else (m, .ok ())
  (locked.1, locked.2.map fun _ => { s with tableIter := rows })

/-- `Next()` by a transaction that runs alone: false at `End()`; otherwise, unless the transaction
is `READ_UNCOMMITTED`, an S lock on the iterator's row, then its RID and tuple, `++table_iter_`,
and `UnlockRow` of the RID the iterator names after it.  The isolation level, which no call
changes, is read once. -/
def next (m : LockManager R) (s : SeqScanExecutor R Tuple) :
    LockManager R × Except Stop (Option (R × Tuple) × SeqScanExecutor R Tuple) :=
  match s.tableIter with
  | [] => (m, .ok (none, s))
  | (rid, tuple) :: rest =>
    let s' := { s with tableIter := rest }
    if (m.txns s.txnId).isolationLevel ≠ .readUncommitted then
      let locked := m.callAlone s.txnId (m.lockRow s.txnId .shared s.oid rid)
      match locked.2 with
      | .error e => (locked.1, .error e)
      | .ok () =>
        let unlocked := locked.1.callAlone s.txnId (locked.1.unlockRow s.txnId s.oid s'.iterRid)
        (unlocked.1, unlocked.2.map fun _ => (some (rid, tuple), s'))
    else (m, .ok (some (rid, tuple), s'))

/-- On every table with a row, a transaction at `READ_COMMITTED` or `REPEATABLE_READ` that has
just begun and runs alone gets through `Init`, and its first `Next` throws: it unlocks the RID
after the row it locked, which it holds no lock on, and is aborted. -/
theorem seqScan_first_next_aborts (iso : Int → IsolationLevel) (txnId : Int) (oid : Nat)
    (rows : List (R × Tuple)) (endRid : R)
    (hiso : iso txnId = .readCommitted ∨ iso txnId = .repeatableRead) (hrows : rows ≠ [])
    (hnodup : (rows.map Prod.fst).Nodup) (hend : endRid ∉ rows.map Prod.fst) :
    ∃ m₁ s₁ m₂, init (LockManager.new iso) rows ⟨oid, txnId, [], endRid⟩ = (m₁, .ok s₁) ∧
      next m₁ s₁ = (m₂, .error (.threw (.abort .attemptedUnlockButNoLockHeld))) ∧
      (m₂.txns txnId).state = .aborted := by
  obtain ⟨⟨rid₁, t₁⟩, rest, rfl⟩ := List.exists_cons_of_ne_nil hrows
  have hru : iso txnId ≠ .readUncommitted := by rcases hiso with h | h <;> simp [h]
  -- The RID `Next` unlocks is not the row's.
  have hne : (⟨oid, txnId, rest, endRid⟩ : SeqScanExecutor R Tuple).iterRid ≠ rid₁ := by
    rcases rest with _ | ⟨⟨rid₂, t₂⟩, rest⟩
    · exact fun h => hend (by simp [iterRid] at h; simp [h])
    · exact fun h => (List.nodup_cons.mp hnodup).1 (by simp [iterRid] at h; simp [h])
  -- `Init`: the IS lock on the table is granted at once.
  obtain ⟨m₁, hlockTable, hq₁, ht₁⟩ := callAlone_lockTable_empty (m := LockManager.new iso)
    (t := txnId) (show (Transaction.begin (iso txnId) : Transaction R).state = .growing from rfl)
    hru (show (LockManager.new iso : LockManager R).queue (.table oid) = .empty from rfl)
  -- The first `Next`: the S lock on the row is granted at once, the unlock of the next RID throws.
  obtain ⟨m₂, hlockRow, hq₂, -⟩ := callAlone_lockRow_empty (m := m₁) (t := txnId) oid
    (by simp [ht₁, Transaction.bookKeeping, LockManager.new, Transaction.begin])
    (by simpa [ht₁, Transaction.bookKeeping, LockManager.new, Transaction.begin] using hru)
    (show m₁.queue (.row rid₁) = .empty from (hq₁ _ Resource.noConfusion).trans rfl)
  have hunlock := callAlone_unlockRow_not_held (m := m₂) (t := txnId) oid
    (show (m₂.queue (.row _)).unlockRequest txnId = none by
      rw [hq₂ _ (by simpa using hne), hq₁ _ Resource.noConfusion]; rfl)
  have hru₁ : (m₁.txns txnId).isolationLevel ≠ .readUncommitted := by
    simpa [ht₁, Transaction.bookKeeping, LockManager.new, Transaction.begin] using hru
  refine ⟨m₁, ⟨oid, txnId, (rid₁, t₁) :: rest, endRid⟩, m₂.abortTxn txnId, ?_, ?_, ?_⟩
  · simp only [init, if_pos (show ((LockManager.new iso : LockManager R).txns txnId).isolationLevel
      ≠ .readUncommitted from hru), hlockTable, Except.map]
  · simp only [next, if_pos hru₁, hlockRow, hunlock, Except.map]
  · simp [LockManager.abortTxn, LockManager.setTxn]

/-- A table of one row, RID 1, with `End()` at RID 0, scanned at `READ_COMMITTED`: `Next` unlocks
RID 0 and throws. -/
theorem seqScan_first_next_aborts_one_row :
    [((1 : Nat), (10 : Nat))] ≠ [] ∧ ([((1 : Nat), (10 : Nat))].map Prod.fst).Nodup ∧
      (0 : Nat) ∉ [((1 : Nat), (10 : Nat))].map Prod.fst ∧
      ∃ m₁ s₁ m₂, init (LockManager.new fun _ => .readCommitted) [((1 : Nat), (10 : Nat))]
          ⟨3, 7, [], 0⟩ = (m₁, .ok s₁) ∧
        next m₁ s₁ = (m₂, .error (.threw (.abort .attemptedUnlockButNoLockHeld))) ∧
        (m₂.txns 7).state = .aborted :=
  ⟨by decide, by decide, by decide,
    seqScan_first_next_aborts _ 7 3 _ 0 (.inl rfl) (by decide) (by decide) (by decide)⟩

end SeqScanExecutor

end Bustub
