import Bustub.Concurrency.LockManager

/-!
# What `GrantLock` returns

A thread in the grant loop of `LockTable` or `LockRow` waits until `GrantLock` returns true.
`GrantLock` first checks the mode asked for against every granted request of the queue, the
caller's own included, and returns false on a conflict before it looks at the caller's request.
Past that check its result is exact: it returns true iff the caller holds a granted request when
it returns (`grantLock_fst_eq_true_iff`).  So a caller whose own `EXCLUSIVE` or
`SHARED_INTENTION_EXCLUSIVE` request is already granted is told to wait, and nothing it can do
changes the answer (`grantLock_eq_false_of_granted`).

`upgrading_` is cleared only by the upgrading transaction's own call (`grantLock_upgrading`), yet
any caller's grant pass may grant the pending upgrade.  `grantLock_misreports` runs both from a
new lock manager: a transaction that asks again for the `EXCLUSIVE` lock it holds, and a pending
upgrade granted by another transaction's pass, which leaves `upgrading_` naming a granted
request.
-/

namespace Bustub

open LockMode

namespace LockRequestQueue

/-- The result of the grant pass is whether it leaves a granted request of the caller. -/
theorem grantPass_fst (t : Int) :
    ∀ (l : List LockRequest) (held : List LockMode),
      (grantPass t l held).1 = (grantPass t l held).2.any (isGrantedTxn t)
  | [], _ => rfl
  | r :: rs, held => by
    unfold grantPass
    split_ifs with hwait hcompat <;>
      simp_all [grantPass_fst t rs, isGrantedTxn, isTxn, Bool.or_comm]

/-- The upgrade branch grants the caller's first request. -/
theorem any_grantFirst (t : Int) :
    ∀ l : List LockRequest, l.any (isTxn t) = true → (grantFirst t l).any (isGrantedTxn t) = true
  | [], h => by simp at h
  | r :: rs, h => by
    unfold grantFirst
    by_cases hr : isTxn t r = true
    · simp_all [isGrantedTxn, isTxn]
    · simp only [List.any_cons, hr, Bool.false_or, if_false] at h ⊢
      exact Bool.or_eq_true_iff.mpr (.inr (any_grantFirst t rs h))

/-- `GrantLock(txn, lock_mode, ...)` returns true iff no granted request conflicts with
`lock_mode` and the caller holds a granted request when it returns. -/
theorem grantLock_fst_eq_true_iff (q : LockRequestQueue) (t : Int) (m : LockMode) :
    (q.grantLock t m).1 = true ↔
      ((grantedModes q.requestQueue).all fun m' => grantCompatiable m' m) = true ∧
        (q.grantLock t m).2.requestQueue.any (isGrantedTxn t) = true := by
  unfold grantLock
  split_ifs with hcheck hupgrade
  · simp_all
  · simp only [Bool.not_eq_true', Bool.not_eq_false] at hcheck
    simp only [hcheck, true_and, true_iff]
    exact any_grantFirst t _ (by simpa using hupgrade.2)
  · simp only [Bool.not_eq_true', Bool.not_eq_false] at hcheck
    simp only [hcheck, true_and]
    exact Bool.eq_iff_iff.mp (grantPass_fst t _ _)

/-- A granted request whose mode conflicts with `lock_mode` makes `GrantLock` return false and
leave the queue alone, whoever holds it. -/
theorem grantLock_eq_false_of_granted {q : LockRequestQueue} {t : Int} {m : LockMode}
    {r : LockRequest} (hr : r ∈ q.requestQueue) (hgranted : r.granted = true)
    (hconflict : grantCompatiable r.lockMode m = false) : q.grantLock t m = (false, q) := by
  have hcheck : ((grantedModes q.requestQueue).all fun m' => grantCompatiable m' m) = false := by
    rw [List.all_eq_false]
    exact ⟨r.lockMode, List.mem_map_of_mem _ (List.mem_filter.mpr ⟨hr, hgranted⟩),
      by simp [hconflict]⟩
  simp [grantLock, hcheck]

/-- `GrantLock` changes `upgrading_` only by clearing the caller's own pending upgrade. -/
theorem grantLock_upgrading (q : LockRequestQueue) (t : Int) (m : LockMode) :
    (q.grantLock t m).2.upgrading = q.upgrading ∨
      q.upgrading = some t ∧ (q.grantLock t m).2.upgrading = none := by
  unfold grantLock
  split_ifs with hcheck hupgrade
  · exact .inl rfl
  · exact .inr ⟨hupgrade.1, rfl⟩
  · exact .inl rfl

end LockRequestQueue

namespace LockManager

/-- Two runs from a new lock manager, all transactions `REPEATABLE_READ`.  In the first,
transaction 1 is granted `EXCLUSIVE` on table 0 and calls `LockTable(EXCLUSIVE, 0)` again: it
waits with its request granted, and `GrantLock` returns false.  In the second, transactions 1 and
2 are granted `INTENTION_SHARED` on table 0; 2 upgrades to `EXCLUSIVE` and 3 asks for
`EXCLUSIVE`, both waiting on 1; 1 unlocks, and 3's grant attempt grants 2's upgrade and returns
false, leaving `upgrading_` naming 2's granted request. -/
theorem grantLock_misreports :
    (∃ m : LockManager Nat, Reachable (fun _ => .repeatableRead) m ∧
      m.waiting 1 = some (.table 0 .exclusive) ∧
      (m.tableLockMap 0).requestQueue = [⟨1, .exclusive, 0, true⟩] ∧
      ((m.tableLockMap 0).grantLock 1 .exclusive).1 = false) ∧
    (∃ m : LockManager Nat, Reachable (fun _ => .repeatableRead) m ∧
      (m.tableLockMap 0).upgrading = some 2 ∧
      (m.tableLockMap 0).requestQueue = [⟨2, .exclusive, 0, true⟩, ⟨3, .exclusive, 0, false⟩]) := by
  constructor
  · have r₁ : Reachable (fun _ => .repeatableRead) (_ : LockManager Nat) :=
      .single (.call (.lockTable 1 .exclusive 0 (by rfl) trivial (by rfl)))
    have r₂ := r₁.tail (.call (.grant 1 (.table 0 .exclusive) (by rfl) trivial))
    have reach := r₂.tail (.call (.lockTable 1 .exclusive 0 (by rfl) trivial (by rfl)))
    exact ⟨_, reach, rfl, rfl, rfl⟩
  · have r₁ : Reachable (fun _ => .repeatableRead) (_ : LockManager Nat) :=
      .single (.call (.lockTable 1 .intentionShared 0 (by rfl) trivial (by rfl)))
    have r₂ := r₁.tail (.call (.grant 1 (.table 0 .intentionShared) (by rfl) trivial))
    have r₃ := r₂.tail (.call (.lockTable 2 .intentionShared 0 (by rfl) trivial (by rfl)))
    have r₄ := r₃.tail (.call (.grant 2 (.table 0 .intentionShared) (by rfl) trivial))
    have r₅ := r₄.tail (.call (.lockTable 2 .exclusive 0 (by rfl) trivial (by rfl)))
    have r₆ := r₅.tail (.call (.grant 2 (.table 0 .exclusive) (by rfl) trivial))
    have r₇ := r₆.tail (.call (.lockTable 3 .exclusive 0 (by rfl) trivial (by rfl)))
    have r₈ := r₇.tail (.call (.grant 3 (.table 0 .exclusive) (by rfl) trivial))
    have r₉ := r₈.tail (.call (.unlockTable 1 0 (by rfl) trivial (by rfl)))
    have reach := r₉.tail (.call (.grant 3 (.table 0 .exclusive) (by rfl) trivial))
    exact ⟨_, reach, rfl, rfl⟩

end LockManager

end Bustub
