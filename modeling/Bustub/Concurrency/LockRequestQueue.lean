import Mathlib.Data.List.Nodup
import Mathlib.Data.List.Pairwise
import Bustub.Basic

/-!
# Lock request queues

The lock manager keeps one `LockRequestQueue` per table and per row.  This module models the
part of each lock manager call that acts on one queue, under the queue's latch:

* `LockRequestQueue.updateLock` is the body of both `UpdateLock` overloads: a transaction with no
  request appends one; one with a request in the same mode keeps it; one with a request in
  another mode upgrades it, by erasing it and appending an ungranted request in the new mode.
* `LockRequestQueue.grantLock` is the body of both `GrantLock` overloads: the caller's request is
  granted first when it is the pending upgrade, and otherwise every waiting request compatible
  with all granted ones is granted, in queue order (`grantPass`).
* `abortWaiting` is what a waiter that wakes up aborted does, and `unlockRequest` is the loop of
  `UnlockTable` and `UnlockRow`.

`QueueOk` says that a queue is well formed: no transaction has two requests in it, and every two
granted requests have modes that `GrantCompatiable` accepts.  Every operation keeps
it (`QueueOk.updateLock`, `QueueOk.grantLock`, ...), `grantLock` provided the caller's request
has the mode the caller asks for, which the threads of the lock manager guarantee.
-/

namespace Bustub

/-- `LockMode`. -/
inductive LockMode
  | shared
  | exclusive
  | intentionShared
  | intentionExclusive
  | sharedIntentionExclusive
  deriving DecidableEq, Repr

namespace LockMode

/-- `GrantCompatiable`: the compatibility matrix. -/
def grantCompatiable (first second : LockMode) : Bool :=
  if first = .exclusive ∨ second = .exclusive then false
  else if (first = .shared ∧ second = .intentionExclusive) ∨
      (first = .intentionExclusive ∧ second = .shared) then false
  else if (first = .sharedIntentionExclusive ∧ second ≠ .intentionShared) ∨
      (first ≠ .intentionShared ∧ second = .sharedIntentionExclusive) then false
  else true

theorem grantCompatiable_comm (a b : LockMode) : grantCompatiable a b = grantCompatiable b a := by
  cases a <;> cases b <;> rfl

/-- `IsCompatible`: the upgrades allowed, S → X/SIX, IX → X/SIX, IS → S/X/IX/SIX and SIX → X. -/
def isCompatible (before after : LockMode) : Bool :=
  if before = .shared ∧ (after = .exclusive ∨ after = .sharedIntentionExclusive) then true
  else if before = .intentionExclusive ∧
      (after = .exclusive ∨ after = .sharedIntentionExclusive) then true
  else if before = .intentionShared ∧ (after = .shared ∨ after = .exclusive ∨
      after = .intentionExclusive ∨ after = .sharedIntentionExclusive) then true
  else if before = .sharedIntentionExclusive ∧ after = .exclusive then true
  else false

end LockMode

open LockMode

/-- `AbortReason`. -/
inductive AbortReason
  | lockOnShrinking
  | upgradeConflict
  | lockSharedOnReadUncommitted
  | tableLockNotPresent
  | incompatibleUpgrade
  | tableUnlockedBeforeUnlockingRows
  | attemptedUnlockButNoLockHeld
  deriving DecidableEq, Repr

/-- `LockRequest`: the requesting transaction, the mode, the table, and whether it is granted.
The row of a row request is the key of its queue. -/
structure LockRequest where
  txnId : Int
  lockMode : LockMode
  oid : Nat
  granted : Bool
  deriving DecidableEq, Repr

/-- `LockRequestQueue`: the requests in arrival order, and the transaction whose upgrade is
pending; `none` is `INVALID_TXN_ID`. -/
structure LockRequestQueue where
  requestQueue : List LockRequest
  upgrading : Option Int
  deriving DecidableEq, Repr

namespace LockRequestQueue

/-- The queue `GetLRQueuePtr` creates. -/
def empty : LockRequestQueue := ⟨[], none⟩

/-- Whether a request is `txnId`'s. -/
def isTxn (txnId : Int) (r : LockRequest) : Bool := r.txnId == txnId

/-- The queue part of `UpdateLock(txn, lock_mode, oid)`: on success, the mode of the request an
upgrade replaced, and the new queue. -/
def updateLock (q : LockRequestQueue) (txnId : Int) (lockMode : LockMode) (oid : Nat) :
    Except AbortReason (Option LockMode × LockRequestQueue) :=
  match q.requestQueue.find? (isTxn txnId) with
  | some r =>
    if r.lockMode = lockMode then .ok (none, q)
    else if q.upgrading = none then
      if isCompatible r.lockMode lockMode then
        .ok (some r.lockMode,
          ⟨q.requestQueue.eraseP (isTxn txnId) ++ [⟨txnId, lockMode, oid, false⟩], some txnId⟩)
      else .error .incompatibleUpgrade
    else .error .upgradeConflict
  | none => .ok (none, { q with requestQueue := q.requestQueue ++ [⟨txnId, lockMode, oid, false⟩] })

/-- Granting the first request of `txnId`. -/
def grantFirst (txnId : Int) : List LockRequest → List LockRequest
  | [] => []
  | r :: rs => if isTxn txnId r then { r with granted := true } :: rs else r :: grantFirst txnId rs

/-- The ordinary grant loop of `GrantLock`: each waiting request compatible with every mode
granted so far is granted; also whether a request of `txnId` is granted at the end.  The vector
`has_granted_lock_request` is only read for its modes. -/
def grantPass (txnId : Int) : List LockRequest → List LockMode → Bool × List LockRequest
  | [], _ => (false, [])
  | r :: rs, held =>
    if !r.granted then
      if held.all fun m => grantCompatiable m r.lockMode then
        let res := grantPass txnId rs (r.lockMode :: held)
        (res.1 || isTxn txnId r, { r with granted := true } :: res.2)
      else
        let res := grantPass txnId rs held
        (res.1, r :: res.2)
    else
      let res := grantPass txnId rs held
      (res.1 || isTxn txnId r, r :: res.2)

/-- The modes of the granted requests. -/
def grantedModes (l : List LockRequest) : List LockMode :=
  (l.filter (·.granted)).map (·.lockMode)

/-- The queue part of `GrantLock(txn, lock_mode, ...)`. -/
def grantLock (q : LockRequestQueue) (txnId : Int) (lockMode : LockMode) :
    Bool × LockRequestQueue :=
  if !(grantedModes q.requestQueue).all fun m => grantCompatiable m lockMode then (false, q)
  else if q.upgrading = some txnId ∧ q.requestQueue.any (isTxn txnId) then
    (true, ⟨grantFirst txnId q.requestQueue, none⟩)
  else
    let res := grantPass txnId q.requestQueue (grantedModes q.requestQueue)
    (res.1, { q with requestQueue := res.2 })

/-- What a waiter of `LockTable` or `LockRow` does when it wakes up aborted: it clears the
pending upgrade if it is its own, and erases its request; `true` when it found one and
returns. -/
def abortWaiting (q : LockRequestQueue) (txnId : Int) : Bool × LockRequestQueue :=
  let q := if q.upgrading = some txnId then { q with upgrading := none } else q
  (q.requestQueue.any (isTxn txnId), { q with requestQueue := q.requestQueue.eraseP (isTxn txnId) })

/-- Whether a request is `txnId`'s and granted. -/
def isGrantedTxn (txnId : Int) (r : LockRequest) : Bool := r.txnId == txnId && r.granted

/-- The loop of `UnlockTable` and `UnlockRow`: the mode of the first granted request of `txnId`,
and the queue without it. -/
def unlockRequest (q : LockRequestQueue) (txnId : Int) : Option (LockMode × LockRequestQueue) :=
  (q.requestQueue.find? (isGrantedTxn txnId)).map fun r =>
    (r.lockMode, { q with requestQueue := q.requestQueue.eraseP (isGrantedTxn txnId) })

/-! ## What each operation does -/

variable {q q' : LockRequestQueue} {t : Int} {mode : LockMode}

/-- Inversion of `updateLock`: the transaction's request already has the mode, or it is
upgraded, or the transaction had no request. -/
theorem updateLock_eq {oid : Nat} {old : Option LockMode}
    (hq : q.updateLock t mode oid = .ok (old, q')) :
    (q' = q ∧ old = none ∧ ∃ r ∈ q.requestQueue, isTxn t r = true ∧ r.lockMode = mode) ∨
    (∃ r ∈ q.requestQueue, isTxn t r = true ∧ old = some r.lockMode ∧
      isCompatible r.lockMode mode = true ∧ q.upgrading = none ∧
      q' = ⟨q.requestQueue.eraseP (isTxn t) ++ [⟨t, mode, oid, false⟩], some t⟩) ∨
    ((∀ r ∈ q.requestQueue, isTxn t r = false) ∧ old = none ∧
      q' = { q with requestQueue := q.requestQueue ++ [⟨t, mode, oid, false⟩] }) := by
  unfold updateLock at hq
  split at hq
  · rename_i r hr
    have hmem := List.mem_of_find?_eq_some hr
    have ht := List.find?_some hr
    split_ifs at hq with hm hu hc
    · cases hq
      exact .inl ⟨rfl, rfl, r, hmem, ht, hm⟩
    · cases hq
      exact .inr (.inl ⟨r, hmem, ht, rfl, hc, hu, rfl⟩)
  · rename_i hr
    cases hq
    exact .inr (.inr ⟨fun r h => by simpa using List.find?_eq_none.mp hr r h, rfl, rfl⟩)

/-- Granting leaves every field but `granted` of every request. -/
theorem grantFirst_map {β : Type} (f : LockRequest → β) (hf : ∀ r, f { r with granted := true } = f r)
    (l : List LockRequest) : (grantFirst t l).map f = l.map f := by
  induction l with
  | nil => rfl
  | cons r rs ih => unfold grantFirst; split <;> simp [hf, ih]

theorem grantPass_map {β : Type} (f : LockRequest → β)
    (hf : ∀ r, f { r with granted := true } = f r) (l : List LockRequest) (held : List LockMode) :
    (grantPass t l held).2.map f = l.map f := by
  induction l generalizing held with
  | nil => rfl
  | cons r rs ih => unfold grantPass; split_ifs <;> simp [hf, ih]

/-- A request granted by `grantFirst` is the transaction's. -/
theorem mem_grantFirst {l : List LockRequest} {b : LockRequest} (hb : b ∈ grantFirst t l) :
    b ∈ l ∨ (isTxn t b = true ∧ ∃ b' ∈ l, b = { b' with granted := true }) := by
  induction l with
  | nil => simp [grantFirst] at hb
  | cons r rs ih =>
    unfold grantFirst at hb
    split at hb
    · rename_i hr
      rcases List.mem_cons.mp hb with rfl | hb
      · exact .inr ⟨hr, r, List.mem_cons_self _ _, rfl⟩
      · exact .inl (List.mem_cons_of_mem _ hb)
    · rcases List.mem_cons.mp hb with rfl | hb
      · exact .inl (List.mem_cons_self _ _)
      · rcases ih hb with hb | ⟨ht, b', hb', rfl⟩
        · exact .inl (List.mem_cons_of_mem _ hb)
        · exact .inr ⟨ht, b', List.mem_cons_of_mem _ hb', rfl⟩

/-- A request that `grantPass` grants is compatible with every mode granted before the pass. -/
theorem mem_grantPass {l : List LockRequest} {held : List LockMode} {b : LockRequest}
    (hb : b ∈ (grantPass t l held).2) (hg : b.granted = true) :
    b ∈ l ∨ ∀ m ∈ held, grantCompatiable m b.lockMode = true := by
  induction l generalizing held with
  | nil => simp [grantPass] at hb
  | cons r rs ih =>
    unfold grantPass at hb
    split_ifs at hb with hr hc
    · rcases List.mem_cons.mp hb with rfl | hb
      · exact .inr (by simpa using hc)
      · rcases ih hb with hb | hb
        · exact .inl (List.mem_cons_of_mem _ hb)
        · exact .inr fun m hm => hb m (List.mem_cons_of_mem _ hm)
    all_goals
      rcases List.mem_cons.mp hb with rfl | hb
      · exact .inl (List.mem_cons_self _ _)
      · exact (ih hb).imp_left (List.mem_cons_of_mem _)

/-! ## The invariant of a queue -/

/-- Two requests whose modes `GrantCompatiable` accepts when both are granted. -/
def GrantedCompatible (a b : LockRequest) : Prop :=
  a.granted = true → b.granted = true → grantCompatiable a.lockMode b.lockMode = true

/-- A well-formed queue. -/
structure QueueOk (q : LockRequestQueue) : Prop where
  /-- No transaction has more than one request. -/
  nodup : (q.requestQueue.map (·.txnId)).Nodup
  /-- Every two granted requests have compatible modes. -/
  compatible : q.requestQueue.Pairwise GrantedCompatible

theorem QueueOk.of_sublist (h : q.QueueOk) (hs : List.Sublist q'.requestQueue q.requestQueue) :
    q'.QueueOk :=
  ⟨h.nodup.sublist (hs.map _), h.compatible.sublist hs⟩

/-- Appending a waiting request of a transaction with no request keeps the invariant. -/
theorem QueueOk.append (r : LockRequest) (h : q.QueueOk) (hr : r.granted = false)
    (hfresh : ∀ x ∈ q.requestQueue, x.txnId ≠ r.txnId) (hq : q'.requestQueue = q.requestQueue ++ [r]) :
    q'.QueueOk := by
  refine ⟨?_, hq ▸ List.pairwise_append.mpr ⟨h.compatible, List.pairwise_singleton _ _,
    fun a _ b hb _ hbg => ?_⟩⟩
  · rw [hq, List.map_append, List.nodup_append]
    exact ⟨h.nodup, List.nodup_singleton _, List.disjoint_singleton.mpr fun hm => by
      obtain ⟨x, hx, hxr⟩ := List.mem_map.mp hm
      exact hfresh x hx hxr⟩
  · rw [List.mem_singleton.mp hb, hr] at hbg
    cases hbg

/-- With no transaction twice in the list, `eraseP` removes every request of `t`. -/
theorem txnId_ne_of_mem_eraseP {l : List LockRequest} (hl : (l.map (·.txnId)).Nodup)
    {r : LockRequest} (hr : r ∈ l.eraseP (isTxn t)) : r.txnId ≠ t := by
  induction l with
  | nil => simp at hr
  | cons a l ih =>
    rw [List.map_cons, List.nodup_cons] at hl
    by_cases ha : isTxn t a = true
    · rw [List.eraseP_cons_of_pos ha] at hr
      simp only [isTxn, beq_iff_eq] at ha
      exact fun hrt => hl.1 (ha ▸ hrt ▸ List.mem_map_of_mem _ hr)
    · rw [List.eraseP_cons_of_neg ha] at hr
      rcases List.mem_cons.mp hr with rfl | hr
      · simpa [isTxn] using ha
      · exact ih hl.2 hr

theorem QueueOk.updateLock {oid : Nat} {old : Option LockMode} (h : q.QueueOk)
    (hq : q.updateLock t mode oid = .ok (old, q')) : q'.QueueOk := by
  rcases updateLock_eq hq with ⟨rfl, -⟩ | ⟨-, -, -, -, -, -, rfl⟩ | ⟨hnone, -, rfl⟩
  · exact h
  · have herase : QueueOk ⟨q.requestQueue.eraseP (isTxn t), none⟩ :=
      h.of_sublist (List.eraseP_sublist _)
    exact herase.append _ rfl (fun x hx => txnId_ne_of_mem_eraseP h.nodup hx) rfl
  · exact h.append _ rfl (fun x hx => by simpa [isTxn] using hnone x hx) rfl

/-- After `updateLock`, every request of the caller has the mode it asked for. -/
theorem updateLock_mode {oid : Nat} {old : Option LockMode} (h : q.QueueOk)
    (hq : q.updateLock t mode oid = .ok (old, q')) :
    ∀ r ∈ q'.requestQueue, isTxn t r = true → r.lockMode = mode := by
  intro r hr ht
  rcases updateLock_eq hq with ⟨rfl, -, r₀, h₀, ht₀, hm₀⟩ | ⟨-, -, -, -, -, -, rfl⟩ | ⟨hnone, -, rfl⟩
  · simp only [isTxn, beq_iff_eq] at ht ht₀
    rw [List.inj_on_of_nodup_map h.nodup hr h₀ (ht.trans ht₀.symm), hm₀]
  · rcases List.mem_append.mp hr with hr | hr
    · exact absurd (by simpa [isTxn] using ht) (txnId_ne_of_mem_eraseP h.nodup hr)
    · rw [List.mem_singleton.mp hr]
  · rcases List.mem_append.mp hr with hr | hr
    · rw [hnone r hr] at ht
      cases ht
    · rw [List.mem_singleton.mp hr]

/-- `updateLock` leaves the requests of other transactions. -/
theorem mem_of_mem_updateLock {oid : Nat} {old : Option LockMode}
    (hq : q.updateLock t mode oid = .ok (old, q')) {r : LockRequest} (hr : r ∈ q'.requestQueue)
    (ht : isTxn t r = false) : r ∈ q.requestQueue := by
  rcases updateLock_eq hq with ⟨rfl, -⟩ | ⟨-, -, -, -, -, -, rfl⟩ | ⟨-, -, rfl⟩
  · exact hr
  all_goals
    rcases List.mem_append.mp hr with hr | hr
    · first | exact (List.eraseP_sublist _).subset hr | exact hr
    · rw [List.mem_singleton.mp hr] at ht
      simp [isTxn] at ht

/-- The grant loop keeps every two granted requests compatible. -/
theorem grantPass_pairwise {l : List LockRequest} {held : List LockMode}
    (hl : l.Pairwise GrantedCompatible) (hheld : ∀ a ∈ l, a.granted = true → a.lockMode ∈ held) :
    (grantPass t l held).2.Pairwise GrantedCompatible := by
  induction l generalizing held with
  | nil => exact List.Pairwise.nil
  | cons r rs ih =>
    rw [List.pairwise_cons] at hl
    have hrs : ∀ a ∈ rs, a.granted = true → a.lockMode ∈ held :=
      fun a ha => hheld a (List.mem_cons_of_mem _ ha)
    unfold grantPass
    split_ifs with hr hc
    · -- `r` is granted here: it is compatible with everything granted before and after it
      refine List.pairwise_cons.mpr ⟨fun b hb _ hbg => ?_,
        ih hl.2 fun a ha hg => List.mem_cons_of_mem _ (hrs a ha hg)⟩
      rcases mem_grantPass hb hbg with hb | hb
      · rw [grantCompatiable_comm]
        exact (List.all_eq_true.mp hc) _ (hrs b hb hbg)
      · exact hb _ (List.mem_cons_self _ _)
    · exact List.pairwise_cons.mpr ⟨fun b _ hrg => by simp_all, ih hl.2 hrs⟩
    · -- `r` was granted: everything granted after it is compatible with its mode
      refine List.pairwise_cons.mpr ⟨fun b hb hrg hbg => ?_, ih hl.2 hrs⟩
      rcases mem_grantPass hb hbg with hb | hb
      · exact hl.1 b hb hrg hbg
      · exact hb _ (hheld r (List.mem_cons_self _ _) hrg)

/-- Granting the pending upgrade keeps every two granted requests compatible, when its mode is
compatible with every granted mode. -/
theorem grantFirst_pairwise {l : List LockRequest} (hl : l.Pairwise GrantedCompatible)
    (hc : ∀ a ∈ l, a.granted = true → grantCompatiable a.lockMode mode = true)
    (hmode : ∀ r ∈ l, isTxn t r = true → r.lockMode = mode) :
    (grantFirst t l).Pairwise GrantedCompatible := by
  induction l with
  | nil => exact List.Pairwise.nil
  | cons r rs ih =>
    rw [List.pairwise_cons] at hl
    unfold grantFirst
    split
    · rename_i hr
      refine List.pairwise_cons.mpr ⟨fun b hb _ hbg => ?_, hl.2⟩
      rw [hmode r (List.mem_cons_self _ _) hr, grantCompatiable_comm]
      exact hc b (List.mem_cons_of_mem _ hb) hbg
    · refine List.pairwise_cons.mpr ⟨fun b hb hrg hbg => ?_,
        ih hl.2 (fun a ha => hc a (List.mem_cons_of_mem _ ha))
          (fun a ha => hmode a (List.mem_cons_of_mem _ ha))⟩
      rcases mem_grantFirst hb with hb | ⟨ht, b', hb', rfl⟩
      · exact hl.1 b hb hrg hbg
      · rw [hmode b' (List.mem_cons_of_mem _ hb') ht]
        exact hc r (List.mem_cons_self _ _) hrg

theorem mem_grantedModes {l : List LockRequest} {a : LockRequest} (ha : a ∈ l)
    (hg : a.granted = true) : a.lockMode ∈ grantedModes l :=
  List.mem_map_of_mem _ (List.mem_filter.mpr ⟨ha, hg⟩)

/-- `grantLock` keeps the invariant when every request of the caller has the mode it asks
for. -/
theorem QueueOk.grantLock (h : q.QueueOk)
    (hmode : ∀ r ∈ q.requestQueue, isTxn t r = true → r.lockMode = mode) :
    (q.grantLock t mode).2.QueueOk := by
  unfold LockRequestQueue.grantLock
  split_ifs with hc hu
  · exact h
  · simp only [Bool.not_eq_true', Bool.not_eq_false, List.all_eq_true] at hc
    exact ⟨by rw [grantFirst_map (·.txnId) fun _ => rfl]; exact h.nodup,
      grantFirst_pairwise h.compatible (fun a ha hg => hc _ (mem_grantedModes ha hg)) hmode⟩
  · exact ⟨by rw [grantPass_map (·.txnId) fun _ => rfl]; exact h.nodup,
      grantPass_pairwise h.compatible fun a ha hg => mem_grantedModes ha hg⟩

/-- `grantLock` changes only `granted` flags and the pending upgrade. -/
theorem grantLock_map {β : Type} (f : LockRequest → β) (hf : ∀ r, f { r with granted := true } = f r) :
    (q.grantLock t mode).2.requestQueue.map f = q.requestQueue.map f := by
  unfold LockRequestQueue.grantLock
  split_ifs
  · rfl
  · exact grantFirst_map f hf _
  · exact grantPass_map f hf _ _

theorem abortWaiting_sublist : List.Sublist (q.abortWaiting t).2.requestQueue q.requestQueue := by
  unfold LockRequestQueue.abortWaiting; split <;> exact List.eraseP_sublist _

theorem QueueOk.abortWaiting (h : q.QueueOk) : (q.abortWaiting t).2.QueueOk :=
  h.of_sublist abortWaiting_sublist

/-- Inversion of `unlockRequest`. -/
theorem unlockRequest_eq {m : LockMode} (hq : q.unlockRequest t = some (m, q')) :
    ∃ r ∈ q.requestQueue, isGrantedTxn t r = true ∧ r.lockMode = m ∧
      q' = { q with requestQueue := q.requestQueue.eraseP (isGrantedTxn t) } := by
  obtain ⟨r, hr, heq⟩ := Option.map_eq_some'.mp hq
  simp only [Prod.mk.injEq] at heq
  exact ⟨r, List.mem_of_find?_eq_some hr, List.find?_some hr, heq.1, heq.2.symm⟩

theorem unlockRequest_sublist {m : LockMode} (hq : q.unlockRequest t = some (m, q')) :
    List.Sublist q'.requestQueue q.requestQueue := by
  obtain ⟨-, -, -, -, rfl⟩ := unlockRequest_eq hq
  exact List.eraseP_sublist _

theorem QueueOk.unlockRequest {m : LockMode} (h : q.QueueOk) (hq : q.unlockRequest t = some (m, q')) :
    q'.QueueOk :=
  h.of_sublist (unlockRequest_sublist hq)

/-! ## The modes of one transaction's requests -/

/-- The requests of `t` in `q` have mode `mode`. -/
def ModeOk (q : LockRequestQueue) (t : Int) (mode : LockMode) : Prop :=
  ∀ r ∈ q.requestQueue, isTxn t r = true → r.lockMode = mode

theorem ModeOk.of_subset {u : Int} (h : ModeOk q u mode)
    (hs : ∀ r ∈ q'.requestQueue, isTxn u r = true → r ∈ q.requestQueue) : ModeOk q' u mode :=
  fun r hr hu => h r (hs r hr hu) hu

theorem ModeOk.of_sublist {u : Int} (h : ModeOk q u mode)
    (hs : List.Sublist q'.requestQueue q.requestQueue) : ModeOk q' u mode :=
  h.of_subset fun _ hr _ => hs.subset hr

/-- Granting keeps the mode of every request. -/
theorem ModeOk.grantLock {u : Int} {m : LockMode} (h : ModeOk q u m) :
    ModeOk (q.grantLock t mode).2 u m := by
  intro r hr hu
  have hkey : (q.grantLock t mode).2.requestQueue.map (fun r => (r.txnId, r.lockMode)) =
      q.requestQueue.map (fun r => (r.txnId, r.lockMode)) := grantLock_map _ fun _ => rfl
  obtain ⟨r₀, h₀, heq⟩ := List.mem_map.mp (hkey ▸ List.mem_map_of_mem _ hr)
  simp only [Prod.mk.injEq] at heq
  rw [← heq.2]
  exact h r₀ h₀ (by simpa [isTxn, heq.1] using hu)

/-- Another transaction's `updateLock` keeps the mode of `u`'s requests. -/
theorem ModeOk.updateLock {u : Int} {m : LockMode} {oid : Nat} {old : Option LockMode}
    (h : ModeOk q u m) (hne : u ≠ t) (hq : q.updateLock t mode oid = .ok (old, q')) :
    ModeOk q' u m :=
  h.of_subset fun r hr hu => mem_of_mem_updateLock hq hr (by
    simp only [isTxn, beq_iff_eq, beq_eq_false_iff_ne] at hu ⊢
    rw [hu]
    exact hne)

end LockRequestQueue

end Bustub
