import Bustub.Concurrency.LockManager

/-!
# Two-phase locking

Across every interleaving of the lock manager's threads, from a reachable state, each transaction
follows the two phases its isolation level asks for (`twoPhase_locking`): its state only moves from
`GROWING` to `SHRINKING` and from either to `ABORTED`, its isolation level never changes, and while
it is `SHRINKING` it gains no lock, except, at `READ_COMMITTED`, S and IS table locks and S row
locks (`Transaction.TwoPhase`).

*States.*  `UnLockChangeState` is the only code that moves a transaction out of `GROWING`, and an
unlock is a call of a thread that does not wait; an exception or the detector aborts.  The other
sections keep the state (`TxnStep.twoPhase`).

*Waits.*  A grant loop records the lock it was entered for, whatever the state is when the grant
comes.  `LockTable` and `LockRow` enter it from `SHRINKING` only at `READ_COMMITTED` and for S or IS
(`lockTable_shrinking`, `lockRow_shrinking`), and a waiting thread cannot unlock, so every wait of
a `SHRINKING` transaction is for such a lock (`WaitOk`), in every reachable state.

*Lock sets.*  Each atomic section changes the record of one transaction at most, and in one of a
few ways (`TxnStep`, `Step.txnStep`); the run theorem is built from that lemma alone.
-/

namespace Bustub

namespace Transaction

variable {R : Type}

/-! ## What the bookkeeping changes -/

section Fields

variable (txn : Transaction R) (lockMode : LockMode) (oid : Nat) (rid : R)

@[simp] theorem bookKeeping_state : (txn.bookKeeping lockMode oid).state = txn.state := rfl

@[simp] theorem bookKeeping_isolationLevel :
    (txn.bookKeeping lockMode oid).isolationLevel = txn.isolationLevel := rfl

@[simp] theorem bookKeepingRemove_state : (txn.bookKeepingRemove lockMode oid).state = txn.state :=
  rfl

@[simp] theorem bookKeepingRemove_isolationLevel :
    (txn.bookKeepingRemove lockMode oid).isolationLevel = txn.isolationLevel := rfl

variable [DecidableEq R]

@[simp] theorem bookKeepingRow_state : (txn.bookKeepingRow lockMode oid rid).state = txn.state := by
  cases lockMode <;> rfl

@[simp] theorem bookKeepingRow_isolationLevel :
    (txn.bookKeepingRow lockMode oid rid).isolationLevel = txn.isolationLevel := by
  cases lockMode <;> rfl

@[simp] theorem bookKeepingRemoveRow_state :
    (txn.bookKeepingRemoveRow lockMode oid rid).state = txn.state := by
  cases lockMode <;> rfl

@[simp] theorem bookKeepingRemoveRow_isolationLevel :
    (txn.bookKeepingRemoveRow lockMode oid rid).isolationLevel = txn.isolationLevel := by
  cases lockMode <;> rfl

end Fields

/-- `UnLockChangeState` leaves a transaction as it is, or moves it from `GROWING` to
`SHRINKING`. -/
theorem unLockChangeState_eq (txn : Transaction R) (lockMode : LockMode) :
    txn.unLockChangeState lockMode = txn ∨
      txn.state = .growing ∧ txn.unLockChangeState lockMode = { txn with state := .shrinking } := by
  unfold unLockChangeState
  split_ifs with h <;> simp_all

/-! ## What a transaction may gain -/

/-- `txn'` holds no lock that `txn` does not, except S and IS table locks and S row locks at
`READ_COMMITTED`. -/
structure Gains (txn txn' : Transaction R) : Prop where
  table : ∀ lockMode oid, oid ∈ txn'.tableLockSet lockMode → oid ∈ txn.tableLockSet lockMode ∨
    txn.isolationLevel = .readCommitted ∧
      (lockMode = .shared ∨ lockMode = .intentionShared)
  sharedRow : ∀ oid rid, rid ∈ txn'.sharedRowLockSet oid → rid ∈ txn.sharedRowLockSet oid ∨
    txn.isolationLevel = .readCommitted
  exclusiveRow : ∀ oid rid, rid ∈ txn'.exclusiveRowLockSet oid → rid ∈ txn.exclusiveRowLockSet oid

namespace Gains

theorem refl (txn : Transaction R) : Gains txn txn :=
  ⟨fun _ _ h => .inl h, fun _ _ h => .inl h, fun _ _ h => h⟩

theorem trans {a b c : Transaction R} (h₁ : Gains a b) (h₂ : Gains b c)
    (hil : b.isolationLevel = a.isolationLevel) : Gains a c where
  table lockMode oid h := (h₂.table lockMode oid h).elim (h₁.table lockMode oid) (.inr ∘ (hil ▸ ·))
  sharedRow oid rid h := (h₂.sharedRow oid rid h).elim (h₁.sharedRow oid rid) (.inr ∘ (hil ▸ ·))
  exclusiveRow oid rid h := h₁.exclusiveRow oid rid (h₂.exclusiveRow oid rid h)

/-- Losing locks gains none. -/
theorem of_subset {txn txn' : Transaction R}
    (ht : ∀ lockMode, txn'.tableLockSet lockMode ⊆ txn.tableLockSet lockMode)
    (hs : ∀ oid, txn'.sharedRowLockSet oid ⊆ txn.sharedRowLockSet oid)
    (hx : ∀ oid, txn'.exclusiveRowLockSet oid ⊆ txn.exclusiveRowLockSet oid) : Gains txn txn' :=
  ⟨fun _ _ h => .inl (ht _ h), fun _ _ h => .inl (hs _ h), fun _ _ h => hx _ h⟩

end Gains

theorem update_erase_subset {α β : Type} [DecidableEq α] [DecidableEq β] (f : α → List β) (a : α)
    (y : β) (b : α) : Function.update f a ((f a).erase y) b ⊆ f b := by
  by_cases hb : b = a
  · subst hb
    rw [Function.update_same]
    exact List.erase_subset _ _
  · rw [Function.update_noteq hb]
    exact List.Subset.refl _

theorem mem_update_insert {α β : Type} [DecidableEq α] [DecidableEq β] {f : α → List β} {a b : α}
    {x y : β} (h : x ∈ Function.update f a ((f a).insert y) b) : x ∈ f b ∨ b = a := by
  by_cases hb : b = a
  · exact .inr hb
  · rw [Function.update_noteq hb] at h
    exact .inl h

theorem gains_bookKeepingRemove (txn : Transaction R) (lockMode : LockMode) (oid : Nat) :
    Gains txn (txn.bookKeepingRemove lockMode oid) :=
  .of_subset (update_erase_subset _ _ _) (fun _ => List.Subset.refl _) fun _ => List.Subset.refl _

section Rows

variable [DecidableEq R]

theorem gains_bookKeepingRemoveRow (txn : Transaction R) (lockMode : LockMode) (oid : Nat)
    (rid : R) : Gains txn (txn.bookKeepingRemoveRow lockMode oid rid) := by
  cases lockMode
  case shared => exact .of_subset (fun _ => List.Subset.refl _) (update_erase_subset _ _ _) fun _ => List.Subset.refl _
  case exclusive => exact .of_subset (fun _ => List.Subset.refl _) (fun _ => List.Subset.refl _) (update_erase_subset _ _ _)
  all_goals exact .refl _

/-- The grant of an S or IS lock, at `READ_COMMITTED`, gains only what `Gains` allows. -/
theorem gains_bookKeeping (txn : Transaction R) (w : Waiting R)
    (hil : txn.isolationLevel = .readCommitted)
    (hmode : w.lockMode = .shared ∨ w.lockMode = .intentionShared) :
    Gains txn (w.bookKeeping txn) := by
  cases w with
  | table oid lockMode =>
    refine ⟨fun mode oid' h => (mem_update_insert h).imp_right fun hm => ⟨hil, by rw [hm]; exact hmode⟩,
      fun _ _ h => .inl h, fun _ _ h => h⟩
  | row oid rid lockMode | rowAtTable oid rid lockMode =>
    simp only [Waiting.lockMode] at hmode
    rcases hmode with rfl | rfl
    · exact ⟨fun _ _ h => .inl h, fun _ _ h => (mem_update_insert h).imp_right fun _ => hil,
        fun _ _ h => h⟩
    · exact .refl _

end Rows

/-- What a run may do to a transaction: keep its isolation level; keep its state, abort it, or end
its growing phase; and, while it stays `SHRINKING`, gain only what `Gains` allows. -/
structure TwoPhase (txn txn' : Transaction R) : Prop where
  isolationLevel : txn'.isolationLevel = txn.isolationLevel
  state : txn'.state = txn.state ∨ txn'.state = .aborted ∨
    txn.state = .growing ∧ txn'.state = .shrinking
  gains : txn.state = .shrinking → txn'.state = .shrinking → Gains txn txn'

namespace TwoPhase

theorem refl (txn : Transaction R) : TwoPhase txn txn :=
  ⟨rfl, .inl rfl, fun _ _ => .refl txn⟩

theorem trans {a b c : Transaction R} (h₁ : TwoPhase a b) (h₂ : TwoPhase b c) : TwoPhase a c where
  isolationLevel := h₂.isolationLevel.trans h₁.isolationLevel
  state := by
    rcases h₁.state with h | h | ⟨ha, hb⟩ <;> rcases h₂.state with h' | h' | ⟨hb', hc⟩ <;>
      simp_all
  gains ha hc := by
    -- `SHRINKING` at both ends is `SHRINKING` in between: nothing leaves `ABORTED`
    have hb : b.state = .shrinking := by
      rcases h₁.state with h | h | ⟨h, -⟩ <;> rcases h₂.state with h' | h' | ⟨h', -⟩ <;> simp_all
    exact (h₁.gains ha hb).trans (h₂.gains hb hc) h₁.isolationLevel

end TwoPhase

end Transaction

namespace LockManager

open Transaction

variable {R : Type} [DecidableEq R] {m m' : LockManager R} {t u : Int} {lockMode : LockMode}
  {oid : Nat} {rid : R}

/-! ## The lock calls from `SHRINKING` -/

omit [DecidableEq R] in
/-- `LockTable` lets a `SHRINKING` transaction in only at `READ_COMMITTED`, for S or IS. -/
theorem lockTable_shrinking (h : m.lockTable t lockMode oid = .ok m')
    (hs : (m.txns t).state = .shrinking) :
    (m.txns t).isolationLevel = .readCommitted ∧
      (lockMode = .shared ∨ lockMode = .intentionShared) := by
  unfold lockTable at h
  -- every branch but the last one of `READ_COMMITTED` throws
  cases hil : (m.txns t).isolationLevel <;> simp [hs, hil] at h <;> split_ifs at h with hmode
  exact ⟨rfl, hmode⟩

/-- `LockRow` lets a `SHRINKING` transaction in only at `READ_COMMITTED`, for S. -/
theorem lockRow_shrinking (h : m.lockRow t lockMode oid rid = .ok m')
    (hs : (m.txns t).state = .shrinking) :
    (m.txns t).isolationLevel = .readCommitted ∧ lockMode = .shared := by
  unfold lockRow at h
  cases hil : (m.txns t).isolationLevel <;> simp [hs, hil] at h <;> split_ifs at h
  exact ⟨rfl, ‹_›⟩

/-! ## One step, for one transaction -/

/-- What an atomic section may do to the record of one transaction whose thread waits at `w`:
nothing; abort it; take a lock mode out of its lock sets (an upgrade); record the lock its grant
loop was entered for; or, when the thread does not wait, unlock. -/
inductive TxnStep : Option (Waiting R) → Transaction R → Transaction R → Prop
  | same {w : Option (Waiting R)} {txn : Transaction R} : TxnStep w txn txn
  | abort {w : Option (Waiting R)} {txn : Transaction R} :
      TxnStep w txn { txn with state := .aborted }
  | remove {w : Option (Waiting R)} {txn : Transaction R} (lockMode : LockMode) (oid : Nat) :
      TxnStep w txn (txn.bookKeepingRemove lockMode oid)
  | removeRow {w : Option (Waiting R)} {txn : Transaction R} (lockMode : LockMode) (oid : Nat)
      (rid : R) : TxnStep w txn (txn.bookKeepingRemoveRow lockMode oid rid)
  | grant {txn : Transaction R} (w : Waiting R) : TxnStep (some w) txn (w.bookKeeping txn)
  | unlock {txn : Transaction R} (lockMode : LockMode) (oid : Nat) :
      TxnStep none txn ((txn.unLockChangeState lockMode).bookKeepingRemove lockMode oid)
  | unlockRow {txn : Transaction R} (lockMode : LockMode) (oid : Nat) (rid : R) :
      TxnStep none txn ((txn.unLockChangeState lockMode).bookKeepingRemoveRow lockMode oid rid)

/-- One step keeps the two phases, when a wait of a `SHRINKING` transaction is for an S or IS
lock at `READ_COMMITTED`. -/
theorem TxnStep.twoPhase {w : Option (Waiting R)} {txn txn' : Transaction R}
    (h : TxnStep w txn txn')
    (hw : ∀ w', w = some w' → txn.state = .shrinking →
      txn.isolationLevel = .readCommitted ∧
        (w'.lockMode = .shared ∨ w'.lockMode = .intentionShared)) :
    TwoPhase txn txn' := by
  cases h with
  | same => exact .refl txn
  | abort => exact ⟨rfl, .inr (.inl rfl), fun _ h => nomatch h⟩
  | remove lockMode oid =>
    exact ⟨rfl, .inl rfl, fun _ _ => gains_bookKeepingRemove txn lockMode oid⟩
  | removeRow lockMode oid rid =>
    exact ⟨by simp, .inl (by simp), fun _ _ => gains_bookKeepingRemoveRow txn lockMode oid rid⟩
  | grant w' =>
    refine ⟨by cases w' <;> simp [Waiting.bookKeeping], .inl (by cases w' <;>
      simp [Waiting.bookKeeping]), fun hs _ => ?_⟩
    obtain ⟨hil, hmode⟩ := hw w' rfl hs
    exact gains_bookKeeping txn w' hil hmode
  | unlock lockMode oid | unlockRow lockMode oid _ =>
    rcases unLockChangeState_eq txn lockMode with heq | ⟨hg, heq⟩ <;> rw [heq]
    all_goals first
      | exact ⟨by simp, .inl (by simp), fun _ _ => gains_bookKeepingRemove txn lockMode oid⟩
      | exact ⟨by simp, .inl (by simp), fun _ _ => gains_bookKeepingRemoveRow txn lockMode oid _⟩
      | exact ⟨by simp, .inr (.inr ⟨hg, by simp⟩), fun hs => by rw [hg] at hs; cases hs⟩

/-- A thread that waits does not unlock: its transaction keeps its state or is aborted. -/
theorem TxnStep.state_of_some {w : Waiting R} {txn txn' : Transaction R}
    (h : TxnStep (some w) txn txn') : txn'.state = txn.state ∨ txn'.state = .aborted := by
  cases h with
  | abort => exact .inr rfl
  | grant => exact .inl (by cases w <;> simp [Waiting.bookKeeping])
  | _ => exact .inl (by simp)

theorem TxnStep.update {w : Option (Waiting R)} {f : Int → Transaction R} {x : Transaction R}
    (hx : u = t → TxnStep w (f u) x) : TxnStep w (f u) (Function.update f t x u) := by
  by_cases hut : u = t
  · subst hut
    rw [Function.update_same]
    exact hx rfl
  · rw [Function.update_noteq hut]
    exact .same

omit [DecidableEq R] in
theorem abortTxn_txns (m : LockManager R) (t : Int) :
    (m.abortTxn t).txns = Function.update m.txns t { m.txns t with state := .aborted } := rfl

theorem abortWaiting_txns (m : LockManager R) (t : Int) (w : Waiting R) :
    (m.abortWaiting t w).txns = m.txns := by
  unfold abortWaiting
  dsimp only
  split_ifs <;> simp

theorem grant_txns (m : LockManager R) (t : Int) (w : Waiting R) :
    (m.grant t w).txns = m.txns ∨
      (m.grant t w).txns = Function.update m.txns t (w.bookKeeping (m.txns t)) := by
  cases h : ((m.queue w.resource).grantLock t w.lockMode).1
  · exact .inl (by rw [grant_of_false h]; simp)
  · exact .inr (by rw [grant_of_true h]; simp)

omit [DecidableEq R] in
/-- A round of the detector aborts transactions and changes no other field of any. -/
theorem abortVictims_txns (fuel : Nat) (m : LockManager R) (u : Int) :
    (abortVictims fuel m).txns u = m.txns u ∨
      (abortVictims fuel m).txns u = { m.txns u with state := .aborted } := by
  induction fuel generalizing m with
  | zero => exact .inl rfl
  | succ fuel ih =>
    unfold abortVictims
    split
    · exact .inl rfl
    · rename_i v g _
      by_cases huv : u = v
      · subst huv
        rcases ih { m.abortTxn u with graph := g.removeTxn u } with h | h <;>
          exact .inr (by rw [h]; simp [abortTxn_txns])
      · simpa [abortTxn_txns, Function.update_noteq huv] using ih { m.abortTxn v with graph := g.removeTxn v }

omit [DecidableEq R] in
theorem runCycleDetection_txns (m : LockManager R) (u : Int) :
    m.runCycleDetection.txns u = m.txns u ∨
      m.runCycleDetection.txns u = { m.txns u with state := .aborted } :=
  abortVictims_txns _ _ u

/-- Every atomic section changes the record of a transaction as `TxnStep` allows. -/
theorem Step.txnStep (h : Step m m') (u : Int) :
    TxnStep (m.waiting u) (m.txns u) (m'.txns u) := by
  cases h with
  | call hc =>
    cases hc with
    | lockTable t _ oid _ _ hl =>
      obtain ⟨m₁, hu, rfl⟩ := lockTable_ok hl
      obtain ⟨old, q, -, rfl⟩ := updateLock_ok hu
      refine TxnStep.update fun hut => ?_
      subst hut
      cases old
      · exact .same
      · exact .remove _ oid
    | lockRow t lockMode oid rid _ _ hl =>
      obtain ⟨-, ⟨m₁, hu, rfl⟩ | ⟨m₁, hu, rfl, -⟩⟩ := lockRow_ok hl
      · obtain ⟨old, q, -, rfl⟩ := updateLockRow_ok hu
        refine TxnStep.update fun hut => ?_
        subst hut
        cases old
        · exact .same
        · exact .removeRow lockMode oid rid
      · obtain ⟨old, q, -, rfl⟩ := updateLock_ok hu
        refine TxnStep.update fun hut => ?_
        subst hut
        cases old
        · exact .same
        · exact .remove _ oid
    | grant t w hw _ =>
      rcases grant_txns m t w with h | h <;> rw [h]
      · exact .same
      · refine TxnStep.update fun hut => ?_
        subst hut
        rw [hw]
        exact .grant w
    | unlockTable t oid hw _ hu =>
      obtain ⟨-, -, mode, q, -, rfl⟩ := unlockTable_ok hu
      refine TxnStep.update fun hut => ?_
      subst hut
      rw [hw]
      exact .unlock mode oid
    | unlockRow t oid rid hw _ hu =>
      obtain ⟨mode, q, -, rfl⟩ := unlockRow_ok hu
      refine TxnStep.update fun hut => ?_
      subst hut
      rw [hw]
      exact .unlockRow mode oid rid
    | lockTableAbort t | lockRowAbort t | unlockTableAbort t | unlockRowAbort t =>
      refine TxnStep.update fun hut => ?_
      subst hut
      exact .abort
  | abortWaiting t w _ _ => rw [abortWaiting_txns]; exact .same
  | runCycleDetection =>
    rcases runCycleDetection_txns m u with h | h <;> rw [h]
    · exact .same
    · exact .abort

/-! ## The waits of `SHRINKING` transactions -/

/-- A new wait begins only where a lock call enters its grant loop, and from `SHRINKING` that is
for an S or IS lock at `READ_COMMITTED`. -/
theorem Step.waiting_of_some {w : Waiting R} (h : Step m m') (hw : m'.waiting u = some w) :
    m.waiting u = some w ∨ ((m'.txns u).state = .shrinking →
      (m'.txns u).isolationLevel = .readCommitted ∧
        (w.lockMode = .shared ∨ w.lockMode = .intentionShared)) := by
  cases h with
  | call hc =>
    cases hc with
    | lockTable t lockMode oid _ _ hl =>
      obtain ⟨m₁, hu, rfl⟩ := lockTable_ok hl
      obtain ⟨old, q, -, rfl⟩ := updateLock_ok hu
      by_cases hut : u = t
      · subst hut
        simp at hw
        subst hw
        refine .inr fun hs => ?_
        cases old <;> simpa using lockTable_shrinking hl (by simpa using hs)
      · exact .inl (by simpa [Function.update_noteq hut] using hw)
    | lockRow t lockMode oid rid _ _ hl =>
      obtain ⟨-, ⟨m₁, hu, rfl⟩ | ⟨m₁, hu, rfl, -⟩⟩ := lockRow_ok hl
      · obtain ⟨old, q, -, rfl⟩ := updateLockRow_ok hu
        by_cases hut : u = t
        · subst hut
          simp at hw
          subst hw
          refine .inr fun hs => ?_
          cases old <;> simpa [Waiting.lockMode] using
            (lockRow_shrinking hl (by simpa using hs)).imp_right .inl
        · exact .inl (by simpa [Function.update_noteq hut] using hw)
      · obtain ⟨old, q, -, rfl⟩ := updateLock_ok hu
        by_cases hut : u = t
        · subst hut
          simp at hw
          subst hw
          refine .inr fun hs => ?_
          cases old <;> simpa [Waiting.lockMode] using
            (lockRow_shrinking hl (by simpa using hs)).imp_right .inl
        · exact .inl (by simpa [Function.update_noteq hut] using hw)
    | grant t w' => exact .inl ((grant_eq m t w').2 u w hw)
    | unlockTable t oid _ _ hu =>
      obtain ⟨-, -, mode, q, -, rfl⟩ := unlockTable_ok hu
      exact .inl hw
    | unlockRow t oid rid _ _ hu =>
      obtain ⟨mode, q, -, rfl⟩ := unlockRow_ok hu
      exact .inl hw
    | lockTableAbort | lockRowAbort | unlockTableAbort | unlockRowAbort => exact .inl hw
  | abortWaiting t w' => exact .inl ((abortWaiting_eq m t w').2 u w hw)
  | runCycleDetection => exact .inl ((runCycleDetection_queue m).2 ▸ hw)

/-- Every wait of a `SHRINKING` transaction is for an S or IS lock, at `READ_COMMITTED`. -/
def WaitOk (m : LockManager R) : Prop :=
  ∀ t w, m.waiting t = some w → (m.txns t).state = .shrinking →
    (m.txns t).isolationLevel = .readCommitted ∧
      (w.lockMode = .shared ∨ w.lockMode = .intentionShared)

theorem WaitOk.step (hok : m.WaitOk) (h : Step m m') : m'.WaitOk := by
  intro u w hw hs
  rcases h.waiting_of_some hw with hold | hnew
  · -- a thread that already waited: it has not unlocked, so it was `SHRINKING` already
    have hstep := h.txnStep u
    rw [hold] at hstep
    have hs₀ : (m.txns u).state = .shrinking := by
      rcases hstep.state_of_some with h₁ | h₁ <;> rw [h₁] at hs
      · exact hs
      · cases hs
    rw [(hstep.twoPhase fun w' hw' => hok u w' (hold ▸ hw')).isolationLevel]
    exact hok u w hold hs₀
  · exact hnew hs

omit [DecidableEq R] in
theorem waitOk_new (isolationLevel : Int → IsolationLevel) :
    (new isolationLevel : LockManager R).WaitOk :=
  fun _ _ h => by simp [new] at h

theorem WaitOk.of_reachable {isolationLevel : Int → IsolationLevel}
    (h : Reachable isolationLevel m) : m.WaitOk := by
  induction h with
  | refl => exact waitOk_new isolationLevel
  | tail _ hs ih => exact ih.step hs

/-! ## Runs -/

/-- Two-phase locking: along any interleaving from a reachable state, each transaction keeps its
isolation level; its state stays, becomes `ABORTED`, or goes from `GROWING` to `SHRINKING`; and
from `SHRINKING` to `SHRINKING` it gains no lock except S and IS table locks and S row locks at
`READ_COMMITTED`. -/
theorem twoPhase_locking {isolationLevel : Int → IsolationLevel} (hm : Reachable isolationLevel m)
    (hrun : Relation.ReflTransGen Step m m') (t : Int) : TwoPhase (m.txns t) (m'.txns t) := by
  induction hrun with
  | refl => exact .refl _
  | tail hrun hs ih =>
    have hok := WaitOk.of_reachable (Relation.ReflTransGen.trans hm hrun)
    exact ih.trans ((hs.txnStep t).twoPhase fun w hw => hok t w hw)

/-- At `READ_COMMITTED`, transaction 0 locks table 0 in X and unlocks it, which ends its growing
phase; it then locks table 1 in S, which `SHRINKING` allows at that level. -/
theorem twoPhase_locking_readCommitted :
    ∃ m m' : LockManager Nat, Reachable (fun _ => .readCommitted) m ∧
      Relation.ReflTransGen Step m m' ∧ (m.txns 0).state = .shrinking ∧
      1 ∈ (m'.txns 0).tableLockSet .shared ∧ TwoPhase (m.txns 0) (m'.txns 0) := by
  have reach : Reachable (R := Nat) (fun _ => .readCommitted) _ :=
    .tail (.tail (.single (.call (.lockTable 0 .exclusive 0 rfl trivial rfl)))
      (.call (.grant 0 (.table 0 .exclusive) rfl trivial)))
      (.call (.unlockTable 0 0 rfl trivial rfl))
  refine ⟨_, _, reach, .tail (.single (.call (.lockTable 0 .shared 1 rfl trivial rfl)))
    (.call (.grant 0 (.table 1 .shared) rfl trivial)), rfl, by decide, ?_⟩
  exact twoPhase_locking reach (.tail (.single (.call (.lockTable 0 .shared 1 rfl trivial rfl)))
    (.call (.grant 0 (.table 1 .shared) rfl trivial))) 0

end LockManager

end Bustub
