import Bustub.Concurrency.LockManager

/-!
# Every lock queue stays well formed

Across every interleaving of the lock manager's threads, each table and row queue has at most one
request per transaction, and its granted requests are pairwise compatible (`QueueOk`).

`GrantLock` checks compatibility for the mode the waiting thread asks for, not for the mode its
request has, so the invariant `Inv` carries a second part: the requests of a waiting thread, in
the queue it waits at, have the mode it waits for (`ModeOk`).  `UpdateLock` gives the caller's
request the new mode before the thread starts to wait, and no call changes the mode of another
transaction's request.

Every atomic section replaces at most one queue and starts no other thread's wait, so one lemma
does the bookkeeping (`Inv.setQueue`), and each kind of section needs only the fact about its
queue (`Inv.updateLock`, `Inv.grant`, `Inv.setQueue_sublist` for the removals).  `Inv.step` and
`Inv.of_reachable` follow, and `lockQueues_wellFormed` reads the first part off.
-/

namespace Bustub

namespace LockManager

open LockRequestQueue

variable {R : Type} [DecidableEq R] {m m' : LockManager R} {t : Int} {lockMode : LockMode}
  {oid : Nat} {rid : R}

/-- The invariant of the queues: every queue is well formed, and the requests of a waiting
thread have the mode it waits for. -/
structure Inv (m : LockManager R) : Prop where
  queue_ok : ∀ k, (m.queue k).QueueOk
  waiting_ok : ∀ t w, m.waiting t = some w → ModeOk (m.queue w.resource) t w.lockMode

omit [DecidableEq R] in
theorem inv_new (isolationLevel : Int → IsolationLevel) :
    (new isolationLevel : LockManager R).Inv where
  queue_ok k := by cases k <;> exact ⟨List.nodup_nil, List.Pairwise.nil⟩
  waiting_ok _ _ h := by simp [new] at h

/-! ## Changing one queue -/

omit [DecidableEq R] in
theorem Inv.congr (h : m.Inv) (hq : m'.queue = m.queue) (hw : m'.waiting = m.waiting) :
    m'.Inv where
  queue_ok k := hq ▸ h.queue_ok k
  waiting_ok t w hw' := hq ▸ h.waiting_ok t w (hw ▸ hw')

omit [DecidableEq R] in
theorem Inv.setTxn (h : m.Inv) (txn : Transaction R) : (m.setTxn t txn).Inv :=
  h.congr rfl rfl

omit [DecidableEq R] in
/-- A thread starts to wait where its requests have the mode it asks for. -/
theorem Inv.setWaiting (h : m.Inv) {o : Option (Waiting R)}
    (hw : ∀ w, o = some w → ModeOk (m.queue w.resource) t w.lockMode) : (m.setWaiting t o).Inv where
  queue_ok := h.queue_ok
  waiting_ok u w hu := by
    by_cases hut : u = t
    · subst hut
      exact hw w (by simpa using hu)
    · exact h.waiting_ok u w (by simpa [Function.update_noteq hut] using hu)

/-- Replacing the queue of `k` by a well-formed queue that keeps the mode of every waiting
thread's requests at `k`, while no thread starts to wait, keeps the invariant. -/
theorem Inv.setQueue (h : m.Inv) {k : Resource R} {q : LockRequestQueue}
    (hqueue : m'.queue = Function.update m.queue k q)
    (hwaiting : ∀ u w, m'.waiting u = some w → m.waiting u = some w) (hq : q.QueueOk)
    (hmode : ∀ u w, m.waiting u = some w → w.resource = k → ModeOk q u w.lockMode) : m'.Inv where
  queue_ok k' := by
    rw [hqueue]
    by_cases hk : k' = k
    · subst hk
      simpa using hq
    · simpa [Function.update_noteq hk] using h.queue_ok k'
  waiting_ok u w hw := by
    have hw₀ := hwaiting u w hw
    rw [hqueue]
    by_cases hk : w.resource = k
    · rw [hk, Function.update_same]
      exact hmode u w hw₀ hk
    · rw [Function.update_noteq hk]
      exact h.waiting_ok u w hw₀

/-- Removing requests from the queue of `k` keeps the invariant. -/
theorem Inv.setQueue_sublist (h : m.Inv) {k : Resource R} {q : LockRequestQueue}
    (hqueue : m'.queue = Function.update m.queue k q)
    (hwaiting : ∀ u w, m'.waiting u = some w → m.waiting u = some w)
    (hs : List.Sublist q.requestQueue (m.queue k).requestQueue) : m'.Inv :=
  h.setQueue hqueue hwaiting ((h.queue_ok k).of_sublist hs) fun u w hu hk =>
    (hk ▸ h.waiting_ok u w hu).of_sublist hs

/-! ## The calls -/

/-- `UpdateLock` on the queue of `k` by a thread that does not wait: the caller's requests
there get the new mode. -/
theorem Inv.setQueue_updateLock (h : m.Inv) (hw : m.waiting t = none) {k : Resource R}
    {old : Option LockMode} {q : LockRequestQueue}
    (hq : (m.queue k).updateLock t lockMode oid = .ok (old, q))
    (hqueue : m'.queue = Function.update m.queue k q) (hwaiting : m'.waiting = m.waiting) :
    m'.Inv ∧ ModeOk (m'.queue k) t lockMode := by
  refine ⟨h.setQueue hqueue (fun _ _ => hwaiting ▸ id) ((h.queue_ok k).updateLock hq) ?_, ?_⟩
  · intro u w hu hk
    have hne : u ≠ t := by
      rintro rfl
      simp [hw] at hu
    exact (hk ▸ h.waiting_ok u w hu).updateLock hne hq
  · rw [hqueue, Function.update_same]
    exact updateLock_mode (h.queue_ok k) hq

theorem Inv.updateLock (h : m.Inv) (hw : m.waiting t = none)
    (hu : m.updateLock t lockMode oid = .ok m') :
    m'.Inv ∧ ModeOk (m'.queue (.table oid)) t lockMode := by
  obtain ⟨old, q, hq, rfl⟩ := updateLock_ok hu
  exact h.setQueue_updateLock (k := .table oid) hw hq (by simp) rfl

theorem Inv.updateLockRow (h : m.Inv) (hw : m.waiting t = none)
    (hu : m.updateLockRow t lockMode oid rid = .ok m') :
    m'.Inv ∧ ModeOk (m'.queue (.row rid)) t lockMode := by
  obtain ⟨old, q, hq, rfl⟩ := updateLockRow_ok hu
  exact h.setQueue_updateLock (k := .row rid) hw hq (by simp) rfl

omit [DecidableEq R] in
/-- A thread that has just updated the queue of `w` starts to wait there. -/
theorem Inv.enter (h : m.Inv) (w : Waiting R) (hmode : ModeOk (m.queue w.resource) t w.lockMode) :
    (m.setWaiting t (some w)).Inv :=
  h.setWaiting fun _ hw => Option.some.inj hw ▸ hmode

theorem Inv.lockTable (h : m.Inv) (hw : m.waiting t = none)
    (hl : m.lockTable t lockMode oid = .ok m') : m'.Inv := by
  obtain ⟨m₁, hu, rfl⟩ := lockTable_ok hl
  obtain ⟨h₁, hmode⟩ := h.updateLock hw hu
  exact h₁.enter (.table oid lockMode) hmode

theorem Inv.lockRow (h : m.Inv) (hw : m.waiting t = none)
    (hl : m.lockRow t lockMode oid rid = .ok m') : m'.Inv := by
  rcases (lockRow_ok hl).2 with ⟨m₁, hu, rfl⟩ | ⟨m₁, hu, rfl, -⟩
  · obtain ⟨h₁, hmode⟩ := h.updateLockRow hw hu
    exact h₁.enter (.row oid rid lockMode) hmode
  · obtain ⟨h₁, hmode⟩ := h.updateLock hw hu
    exact h₁.enter (.rowAtTable oid rid lockMode) hmode

/-- A grant attempt keeps the invariant: `GrantLock` grants only a mode compatible with the
granted ones, and the waiter's request has that mode. -/
theorem Inv.grant (h : m.Inv) {w : Waiting R} (hw : m.waiting t = some w) : (m.grant t w).Inv :=
  h.setQueue (grant_eq m t w).1 (grant_eq m t w).2
    ((h.queue_ok _).grantLock (h.waiting_ok t w hw)) fun u w' hu hk =>
      (hk ▸ h.waiting_ok u w' hu).grantLock

theorem Inv.abortWaiting (h : m.Inv) (w : Waiting R) : (m.abortWaiting t w).Inv :=
  h.setQueue_sublist (abortWaiting_eq m t w).1 (abortWaiting_eq m t w).2 abortWaiting_sublist

theorem Inv.unlockTable (h : m.Inv) (hu : m.unlockTable t oid = .ok m') : m'.Inv := by
  obtain ⟨-, -, mode, q, hq, rfl⟩ := unlockTable_ok hu
  have h₁ : (m.setTableQueue oid q).Inv :=
    h.setQueue_sublist (k := .table oid) (by simp) (fun _ _ => id) (unlockRequest_sublist hq)
  exact h₁.setTxn _

theorem Inv.unlockRow (h : m.Inv) (hu : m.unlockRow t oid rid = .ok m') : m'.Inv := by
  obtain ⟨mode, q, hq, rfl⟩ := unlockRow_ok hu
  have h₁ : (m.setRowQueue rid q).Inv :=
    h.setQueue_sublist (k := .row rid) (by simp) (fun _ _ => id) (unlockRequest_sublist hq)
  exact h₁.setTxn _

/-! ## Runs -/

theorem Inv.call {mayAct : Transaction R → Prop} (h : m.Inv) (hc : Call mayAct m m') : m'.Inv := by
  cases hc with
  | lockTable _ _ _ hw _ hl => exact h.lockTable hw hl
  | lockRow _ _ _ _ hw _ hl => exact h.lockRow hw hl
  | grant _ _ hw _ => exact h.grant hw
  | unlockTable _ _ _ _ hu => exact h.unlockTable hu
  | unlockRow _ _ _ _ _ hu => exact h.unlockRow hu
  | lockTableAbort | lockRowAbort | unlockTableAbort | unlockRowAbort => exact h.setTxn _

theorem Inv.step (h : m.Inv) (hs : Step m m') : m'.Inv := by
  cases hs with
  | call hc => exact h.call hc
  | abortWaiting _ w _ _ => exact h.abortWaiting w
  | runCycleDetection => exact h.congr (runCycleDetection_queue m).1 (runCycleDetection_queue m).2

theorem Inv.of_reachable {isolationLevel : Int → IsolationLevel} (h : Reachable isolationLevel m) :
    m.Inv := by
  induction h with
  | refl => exact inv_new isolationLevel
  | tail _ hs ih => exact ih.step hs

/-- Every queue of a reachable state, of a table or of a row, has one request per transaction,
and every two of its granted requests have modes that `GrantCompatiable` accepts. -/
theorem lockQueues_wellFormed {isolationLevel : Int → IsolationLevel}
    (h : Reachable isolationLevel m) (k : Resource R) :
    ((m.queue k).requestQueue.map (·.txnId)).Nodup ∧
      (m.queue k).requestQueue.Pairwise GrantedCompatible :=
  ⟨((Inv.of_reachable h).queue_ok k).nodup, ((Inv.of_reachable h).queue_ok k).compatible⟩

/-- Two transactions at `REPEATABLE_READ` each lock table 0 in S and are granted: the queue holds
both requests, granted. -/
theorem lockQueues_wellFormed_sharedTable :
    ∃ m : LockManager Nat, Reachable (fun _ => .repeatableRead) m ∧
      (m.tableLockMap 0).requestQueue.map (fun r => (r.txnId, r.granted)) = [(0, true), (1, true)] ∧
      ((m.queue (.table 0)).requestQueue.map (·.txnId)).Nodup ∧
        (m.queue (.table 0)).requestQueue.Pairwise GrantedCompatible :=
  have reach : Reachable (fun _ => .repeatableRead) _ :=
    .tail (.tail (.tail (.single
      (.call (.lockTable 0 .shared 0 rfl trivial rfl)))
      (.call (.grant 0 (.table 0 .shared) rfl trivial)))
      (.call (.lockTable 1 .shared 0 rfl trivial rfl)))
      (.call (.grant 1 (.table 0 .shared) rfl trivial))
  ⟨_, reach, rfl, lockQueues_wellFormed reach (.table 0)⟩

end LockManager

end Bustub
