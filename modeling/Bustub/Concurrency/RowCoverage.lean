import Bustub.Concurrency.QueueInvariant
import Mathlib

/-!
# Row locks and the table locks that cover them

`LockRow` checks with `IsTableFit` that a transaction asking for a row X lock holds IX, X or SIX on
the row's table; the check for a row S lock is commented out in the source, so nothing ties a row
S lock to a table lock.  This module follows a row X request through every interleaving of lock
calls.

What the check sees is the transaction's table lock sets, so the invariant (`TxnOk`) ties each
entry of those sets to a granted request of its mode, and each row X request to a covering request
on its table: IX granted, or X or SIX granted or waiting (`Covers`).  A covering request stays
covering, with one exception: a table upgrade erases the granted request and appends a waiting
one, so while `T` waits for an upgrade from IX to X, another transaction can be granted S on the
table (`rowLock_without_tableLock`).  `UnlockTable` cannot remove the covering request, since the
row stays in the exclusive row lock set until `UnlockRow`.

Every call changes one transaction's lock sets and wait, and the other transactions see the
queues change only by grants (`OnlyActor`, `Keeps`), so one frame lemma (`TxnOk.frame`) serves all
but the caller, and one lemma per call handles the caller.
-/

namespace Bustub

open LockMode

/-! ## Lists related element by element -/

section Forall₂

variable {α β : Type} {R : α → β → Prop} {l₁ : List α} {l₂ : List β}

theorem forall₂_exists_of_mem_left (h : List.Forall₂ R l₁ l₂) {a : α} (ha : a ∈ l₁) :
    ∃ b ∈ l₂, R a b := by
  induction h with
  | nil => cases ha
  | cons hab _ ih =>
    rcases List.mem_cons.mp ha with rfl | ha
    · exact ⟨_, List.mem_cons_self _ _, hab⟩
    · obtain ⟨b, hb, h⟩ := ih ha
      exact ⟨b, List.mem_cons_of_mem _ hb, h⟩

theorem forall₂_exists_of_mem_right (h : List.Forall₂ R l₁ l₂) {b : β} (hb : b ∈ l₂) :
    ∃ a ∈ l₁, R a b := by
  induction h with
  | nil => cases hb
  | cons hab _ ih =>
    rcases List.mem_cons.mp hb with rfl | hb
    · exact ⟨_, List.mem_cons_self _ _, hab⟩
    · obtain ⟨a, ha, h⟩ := ih hb
      exact ⟨a, List.mem_cons_of_mem _ ha, h⟩

end Forall₂

/-! ## Modes that cover a row X lock -/

/-- The table requests that cover a row X lock of their transaction: IX when granted; X and SIX,
granted or an upgrade still waiting. -/
def coversRowExclusive : LockMode → Bool → Bool
  | .intentionExclusive, granted => granted
  | .exclusive, _ | .sharedIntentionExclusive, _ => true
  | _, _ => false

theorem coversRowExclusive_granted {mode : LockMode} {granted : Bool}
    (h : coversRowExclusive mode granted = true) : coversRowExclusive mode true = true := by
  cases mode <;> cases granted <;> simp_all [coversRowExclusive]

/-- An upgrade from a covering mode is to X or SIX, which cover while they wait. -/
theorem coversRowExclusive_upgrade {before after : LockMode} {granted : Bool}
    (h : coversRowExclusive before granted = true) (hc : isCompatible before after = true) :
    coversRowExclusive after false = true := by
  cases before <;> cases after <;> cases granted <;> simp_all [coversRowExclusive, isCompatible]

theorem coversRowExclusive_iff {mode : LockMode} {granted : Bool} :
    coversRowExclusive mode granted = true ↔
      (granted = true ∧ mode ∈ [intentionExclusive, exclusive, sharedIntentionExclusive]) ∨
      (granted = false ∧ mode ∈ [exclusive, sharedIntentionExclusive]) := by
  cases mode <;> cases granted <;> simp [coversRowExclusive]

/-- A granted covering mode conflicts with S, SIX and X. -/
theorem grantCompatiable_of_covers {mode other : LockMode}
    (h : mode ∈ [intentionExclusive, exclusive, sharedIntentionExclusive])
    (hother : other ∈ [shared, sharedIntentionExclusive, exclusive]) :
    grantCompatiable mode other = false := by
  simp only [List.mem_cons, List.mem_singleton, List.not_mem_nil, or_false] at h hother
  rcases h with rfl | rfl | rfl <;> rcases hother with rfl | rfl | rfl <;> rfl

namespace LockRequestQueue

variable {q q' : LockRequestQueue} {t u : Int} {mode : LockMode} {oid : Nat}
  {old : Option LockMode}

/-! ## Grants only raise flags -/

/-- `b` is the request `a`, granted or not since. -/
def Raised (a b : LockRequest) : Prop := b = a ∨ b = { a with granted := true }

theorem Raised.same {a b : LockRequest} (h : Raised a b) :
    b.txnId = a.txnId ∧ b.lockMode = a.lockMode ∧ b.oid = a.oid ∧
      (a.granted = true → b.granted = true) := by
  rcases h with rfl | rfl <;> simp

theorem raised_refl (l : List LockRequest) : List.Forall₂ Raised l l :=
  List.forall₂_same.mpr fun _ _ => .inl rfl

theorem grantFirst_raised (l : List LockRequest) : List.Forall₂ Raised l (grantFirst t l) := by
  induction l with
  | nil => exact .nil
  | cons r rs ih =>
    unfold grantFirst
    split
    · exact .cons (.inr rfl) (raised_refl rs)
    · exact .cons (.inl rfl) ih

theorem grantPass_raised (l : List LockRequest) (held : List LockMode) :
    List.Forall₂ Raised l (grantPass t l held).2 := by
  induction l generalizing held with
  | nil => exact .nil
  | cons r rs ih =>
    unfold grantPass
    split_ifs
    · exact .cons (.inr rfl) (ih _)
    · exact .cons (.inl rfl) (ih _)
    · exact .cons (.inl rfl) (ih _)

/-- `GrantLock` changes a queue only by granting requests. -/
theorem grantLock_raised :
    List.Forall₂ Raised q.requestQueue (q.grantLock t mode).2.requestQueue := by
  unfold LockRequestQueue.grantLock
  split_ifs
  · exact raised_refl _
  · exact grantFirst_raised _
  · exact grantPass_raised _ _

/-! ## What a queue keeps of one transaction -/

/-- `q'` has the requests of `u` that `q` has, in order, each granted or not since. -/
def Keeps (u : Int) (q q' : LockRequestQueue) : Prop :=
  List.Forall₂ Raised (q.requestQueue.filter (isTxn u)) (q'.requestQueue.filter (isTxn u))

theorem Keeps.refl (u : Int) (q : LockRequestQueue) : Keeps u q q := raised_refl _

theorem Keeps.of_filter_eq
    (h : q'.requestQueue.filter (isTxn u) = q.requestQueue.filter (isTxn u)) : Keeps u q q' := by
  unfold Keeps
  rw [h]
  exact raised_refl _

theorem Keeps.mem_left (h : Keeps u q q') {x : LockRequest} (hx : x ∈ q.requestQueue)
    (hu : x.txnId = u) : ∃ y ∈ q'.requestQueue, Raised x y := by
  obtain ⟨y, hy, hxy⟩ := forall₂_exists_of_mem_left h (List.mem_filter.mpr ⟨hx, by simp [isTxn, hu]⟩)
  exact ⟨y, (List.mem_filter.mp hy).1, hxy⟩

theorem Keeps.mem_right (h : Keeps u q q') {y : LockRequest} (hy : y ∈ q'.requestQueue)
    (hu : y.txnId = u) : ∃ x ∈ q.requestQueue, Raised x y := by
  obtain ⟨x, hx, hxy⟩ := forall₂_exists_of_mem_right h (List.mem_filter.mpr ⟨hy, by simp [isTxn, hu]⟩)
  exact ⟨x, (List.mem_filter.mp hx).1, hxy⟩

theorem forall₂_raised_filter {l l' : List LockRequest} (h : List.Forall₂ Raised l l') :
    List.Forall₂ Raised (l.filter (isTxn u)) (l'.filter (isTxn u)) := by
  induction h with
  | nil => exact .nil
  | @cons a b _ _ hab _ ih =>
    have hb : isTxn u b = isTxn u a := by simp [isTxn, hab.same.1]
    rw [List.filter_cons, List.filter_cons, hb]
    split
    · exact .cons hab ih
    · exact ih

theorem keeps_grantLock : Keeps u q (q.grantLock t mode).2 :=
  forall₂_raised_filter grantLock_raised

/-- Erasing another transaction's request leaves `u`'s. -/
theorem filter_eraseP_of_ne {p : LockRequest → Bool} {l : List LockRequest}
    (hp : ∀ x, p x = true → x.txnId ≠ u) : (l.eraseP p).filter (isTxn u) = l.filter (isTxn u) := by
  induction l with
  | nil => rfl
  | cons a l ih =>
    by_cases ha : p a = true
    · rw [List.eraseP_cons_of_pos ha, List.filter_cons_of_neg (by simpa [isTxn] using hp a ha)]
    · rw [List.eraseP_cons_of_neg ha, List.filter_cons, List.filter_cons, ih]

theorem keeps_updateLock (hne : t ≠ u) (hq : q.updateLock t mode oid = .ok (old, q')) :
    Keeps u q q' := by
  refine Keeps.of_filter_eq ?_
  rcases updateLock_eq hq with ⟨rfl, -⟩ | ⟨-, -, -, -, -, -, rfl⟩ | ⟨-, -, rfl⟩
  · rfl
  · have hp : ∀ x, isTxn t x = true → x.txnId ≠ u := fun x hx => by
      simp only [isTxn, beq_iff_eq] at hx
      rw [hx]
      exact hne
    rw [List.filter_append, filter_eraseP_of_ne hp]
    simp [isTxn, hne]
  · simp [isTxn, hne]

theorem keeps_unlockRequest {m : LockMode} (hne : t ≠ u) (hq : q.unlockRequest t = some (m, q')) :
    Keeps u q q' := by
  obtain ⟨-, -, -, -, rfl⟩ := unlockRequest_eq hq
  exact Keeps.of_filter_eq (filter_eraseP_of_ne fun x hx => by
    simp only [isGrantedTxn, Bool.and_eq_true, beq_iff_eq] at hx
    rw [hx.1]
    exact hne)

/-! ## What the calls do to the caller's requests -/

/-- `updateLock` leaves the queue as it was, or the caller's only request is a new waiting one. -/
theorem mem_updateLock_self (h : q.QueueOk) (hq : q.updateLock t mode oid = .ok (old, q'))
    {x : LockRequest} (hx : x ∈ q'.requestQueue) (ht : x.txnId = t) :
    (q' = q ∧ old = none) ∨ x = ⟨t, mode, oid, false⟩ := by
  rcases updateLock_eq hq with ⟨rfl, rfl, -⟩ | ⟨-, -, -, -, -, -, rfl⟩ | ⟨hnone, -, rfl⟩
  · exact .inl ⟨rfl, rfl⟩
  · rcases List.mem_append.mp hx with hx | hx
    · exact absurd ht (txnId_ne_of_mem_eraseP h.nodup hx)
    · exact .inr (List.mem_singleton.mp hx)
  · rcases List.mem_append.mp hx with hx | hx
    · simpa [isTxn, ht] using hnone x hx
    · exact .inr (List.mem_singleton.mp hx)

/-- After `unlockRequest` the caller has no request left. -/
theorem unlockRequest_txnId_ne {m : LockMode} (h : q.QueueOk)
    (hq : q.unlockRequest t = some (m, q')) {x : LockRequest} (hx : x ∈ q'.requestQueue) :
    x.txnId ≠ t := by
  obtain ⟨a, ha, hga, -, rfl⟩ := unlockRequest_eq hq
  obtain ⟨b, l₁, l₂, -, hb, hl, he⟩ := List.exists_of_eraseP ha hga
  have hnodup := h.nodup
  rw [hl, List.map_append, List.map_cons, List.nodup_middle, List.nodup_cons, ← List.map_append]
    at hnodup
  have hbt : b.txnId = t := (by simpa [isGrantedTxn] using hb : b.txnId = t ∧ _).1
  rw [he] at hx
  exact fun hxt => hnodup.1 (hbt ▸ hxt ▸ List.mem_map_of_mem _ hx)

theorem grantFirst_granted {l : List LockRequest} (h : l.any (isTxn t) = true) :
    ∃ y ∈ grantFirst t l, y.txnId = t ∧ y.granted = true := by
  induction l with
  | nil => cases h
  | cons r rs ih =>
    unfold grantFirst
    split
    · rename_i hr
      exact ⟨_, List.mem_cons_self _ _, by simpa [isTxn] using hr, rfl⟩
    · rename_i hr
      obtain ⟨y, hy, hyt⟩ := ih (by simpa [hr] using h)
      exact ⟨y, List.mem_cons_of_mem _ hy, hyt⟩

theorem grantPass_granted {l : List LockRequest} {held : List LockMode}
    (h : (grantPass t l held).1 = true) :
    ∃ y ∈ (grantPass t l held).2, y.txnId = t ∧ y.granted = true := by
  induction l generalizing held with
  | nil => cases h
  | cons r rs ih =>
    unfold grantPass at h ⊢
    split_ifs at h ⊢ with hr
    · rcases Bool.or_eq_true_iff.mp h with h | h
      · obtain ⟨y, hy, hyt⟩ := ih h
        exact ⟨y, List.mem_cons_of_mem _ hy, hyt⟩
      · exact ⟨_, List.mem_cons_self _ _, by simpa [isTxn] using h, rfl⟩
    · obtain ⟨y, hy, hyt⟩ := ih h
      exact ⟨y, List.mem_cons_of_mem _ hy, hyt⟩
    · rcases Bool.or_eq_true_iff.mp h with h | h
      · obtain ⟨y, hy, hyt⟩ := ih h
        exact ⟨y, List.mem_cons_of_mem _ hy, hyt⟩
      · exact ⟨_, List.mem_cons_self _ _, by simpa [isTxn] using h, by simpa using hr⟩

/-- When `GrantLock` returns true, the caller has a granted request. -/
theorem grantLock_granted (h : (q.grantLock t mode).1 = true) :
    ∃ y ∈ (q.grantLock t mode).2.requestQueue, y.txnId = t ∧ y.granted = true := by
  unfold LockRequestQueue.grantLock at h ⊢
  split_ifs at h ⊢ with hc hu
  · exact grantFirst_granted hu.2
  · exact grantPass_granted h

end LockRequestQueue

/-! ## The caller's table requests -/

namespace LockRequestQueue

variable {q q' : LockRequestQueue} {t : Int} {mode lockMode : LockMode} {oid : Nat}
  {old : Option LockMode}

/-- The request of `t` in a table queue covers a row X lock. -/
def Covers (q : LockRequestQueue) (t : Int) : Prop :=
  ∃ x ∈ q.requestQueue, x.txnId = t ∧ coversRowExclusive x.lockMode x.granted = true

/-- `t` has a granted request of mode `mode`. -/
def HoldsGranted (q : LockRequestQueue) (t : Int) (mode : LockMode) : Prop :=
  ∃ x ∈ q.requestQueue, x.txnId = t ∧ x.granted = true ∧ x.lockMode = mode

theorem Covers.keeps (h : Covers q t) (hk : Keeps t q q') : Covers q' t := by
  obtain ⟨x, hx, ht, hc⟩ := h
  obtain ⟨y, hy, hxy⟩ := hk.mem_left hx ht
  obtain ⟨hyt, hym, -, -⟩ := hxy.same
  refine ⟨y, hy, hyt.trans ht, ?_⟩
  rcases hxy with rfl | rfl
  · exact hc
  · exact coversRowExclusive_granted hc

theorem HoldsGranted.keeps (h : HoldsGranted q t mode) (hk : Keeps t q q') :
    HoldsGranted q' t mode := by
  obtain ⟨x, hx, ht, hg, hm⟩ := h
  obtain ⟨y, hy, hxy⟩ := hk.mem_left hx ht
  obtain ⟨hyt, hym, -, hyg⟩ := hxy.same
  exact ⟨y, hy, hyt.trans ht, hyg hg, hym.trans hm⟩

theorem HoldsGranted.covers (h : HoldsGranted q t mode)
    (hmode : mode ∈ [intentionExclusive, exclusive, sharedIntentionExclusive]) : Covers q t := by
  obtain ⟨x, hx, ht, hg, rfl⟩ := h
  exact ⟨x, hx, ht, coversRowExclusive_iff.mpr (.inl ⟨hg, hmode⟩)⟩

/-- The caller's own `updateLock` keeps its covering request covering: an upgrade from IX, X or
SIX is to X or SIX. -/
theorem Covers.updateLock_self (h : Covers q t) (hq : q.QueueOk)
    (hu : q.updateLock t lockMode oid = .ok (old, q')) : Covers q' t := by
  obtain ⟨x, hx, ht, hc⟩ := h
  rcases updateLock_eq hu with ⟨rfl, -⟩ | ⟨r, hr, hrt, -, hcomp, -, rfl⟩ | ⟨hnone, -, -⟩
  · exact ⟨x, hx, ht, hc⟩
  · obtain rfl : x = r :=
      List.inj_on_of_nodup_map hq.nodup hx hr (ht.trans (by simpa [isTxn] using hrt : r.txnId = t).symm)
    exact ⟨_, List.mem_append_right _ (List.mem_singleton_self _), rfl,
      coversRowExclusive_upgrade hc hcomp⟩
  · exact absurd ht (by simpa [isTxn] using hnone x hx)

/-- An `updateLock` that upgrades nothing keeps the caller's granted requests. -/
theorem HoldsGranted.updateLock_none (h : HoldsGranted q t mode)
    (hu : q.updateLock t lockMode oid = .ok (none, q')) : HoldsGranted q' t mode := by
  rcases updateLock_eq hu with ⟨rfl, -⟩ | ⟨_, _, _, hold, _⟩ | ⟨-, -, rfl⟩
  · exact h
  · cases hold
  · obtain ⟨x, hx, hrest⟩ := h
    exact ⟨x, List.mem_append_left _ hx, hrest⟩

/-- An upgrade replaces the caller's only request, so a granted request it had has the old
mode. -/
theorem HoldsGranted.updateLock_some {before : LockMode} (h : HoldsGranted q t mode)
    (hq : q.QueueOk) (hu : q.updateLock t lockMode oid = .ok (some before, q')) :
    mode = before := by
  obtain ⟨x, hx, ht, -, rfl⟩ := h
  rcases updateLock_eq hu with ⟨-, hnone, -⟩ | ⟨r, hr, hrt, hold, -⟩ | ⟨-, hnone, -⟩
  · cases hnone
  · rw [List.inj_on_of_nodup_map hq.nodup hx hr
      (ht.trans (by simpa [isTxn] using hrt : r.txnId = t).symm)]
    exact (Option.some.inj hold).symm
  · cases hnone

/-- `unlockRequest` removes the caller's only request, so a granted request it had has the mode
returned. -/
theorem HoldsGranted.unlockRequest {unlocked : LockMode} (h : HoldsGranted q t mode)
    (hq : q.QueueOk) (hu : q.unlockRequest t = some (unlocked, q')) : mode = unlocked := by
  obtain ⟨x, hx, ht, -, rfl⟩ := h
  obtain ⟨r, hr, hrg, hrm, -⟩ := unlockRequest_eq hu
  have hrt : r.txnId = t := by
    simp only [isGrantedTxn, Bool.and_eq_true, beq_iff_eq] at hrg
    exact hrg.1
  rw [List.inj_on_of_nodup_map hq.nodup hx hr (ht.trans hrt.symm), hrm]

end LockRequestQueue

/-! ## Lock sets -/

namespace Transaction

variable {R : Type} (txn : Transaction R) (lockMode : LockMode) (oid : Nat)

@[simp] theorem bookKeeping_tableLockSet :
    (txn.bookKeeping lockMode oid).tableLockSet =
      Function.update txn.tableLockSet lockMode ((txn.tableLockSet lockMode).insert oid) := rfl

@[simp] theorem bookKeeping_exclusiveRowLockSet :
    (txn.bookKeeping lockMode oid).exclusiveRowLockSet = txn.exclusiveRowLockSet := rfl

@[simp] theorem bookKeepingRemove_tableLockSet :
    (txn.bookKeepingRemove lockMode oid).tableLockSet =
      Function.update txn.tableLockSet lockMode ((txn.tableLockSet lockMode).erase oid) := rfl

@[simp] theorem bookKeepingRemove_exclusiveRowLockSet :
    (txn.bookKeepingRemove lockMode oid).exclusiveRowLockSet = txn.exclusiveRowLockSet := rfl

@[simp] theorem unLockChangeState_tableLockSet :
    (txn.unLockChangeState lockMode).tableLockSet = txn.tableLockSet := by
  unfold unLockChangeState
  split_ifs <;> rfl

@[simp] theorem unLockChangeState_exclusiveRowLockSet :
    (txn.unLockChangeState lockMode).exclusiveRowLockSet = txn.exclusiveRowLockSet := by
  unfold unLockChangeState
  split_ifs <;> rfl

variable [DecidableEq R] (rid : R)

@[simp] theorem bookKeepingRow_tableLockSet :
    (txn.bookKeepingRow lockMode oid rid).tableLockSet = txn.tableLockSet := by
  cases lockMode <;> rfl

@[simp] theorem bookKeepingRemoveRow_tableLockSet :
    (txn.bookKeepingRemoveRow lockMode oid rid).tableLockSet = txn.tableLockSet := by
  cases lockMode <;> rfl

variable {txn lockMode oid rid}

theorem mem_bookKeepingRow_exclusive {rid' : R} {oid' : Nat}
    (h : rid' ∈ txn.exclusiveRowLockSet oid') :
    rid' ∈ (txn.bookKeepingRow lockMode oid rid).exclusiveRowLockSet oid' := by
  cases lockMode <;> simp only [bookKeepingRow]
  all_goals try exact h
  by_cases ho : oid' = oid
  · subst ho
    simpa using List.mem_insert_of_mem h
  · simpa [ho] using h

theorem mem_bookKeepingRow_self :
    rid ∈ (txn.bookKeepingRow .exclusive oid rid).exclusiveRowLockSet oid := by
  simp [bookKeepingRow]

theorem mem_bookKeepingRemoveRow_exclusive {rid' : R} {oid' : Nat}
    (h : rid' ∈ txn.exclusiveRowLockSet oid') (hne : rid' ≠ rid) :
    rid' ∈ (txn.bookKeepingRemoveRow lockMode oid rid).exclusiveRowLockSet oid' := by
  cases lockMode <;> simp only [bookKeepingRemoveRow]
  all_goals try exact h
  by_cases ho : oid' = oid
  · subst ho
    simpa [List.mem_erase_of_ne hne] using h
  · simpa [ho] using h

end Transaction

namespace Waiting

variable {R : Type} [DecidableEq R] {txn : Transaction R} {mode : LockMode} {oid : Nat}

theorem bookKeeping_tableLockSet_nodup (w : Waiting R)
    (h : ∀ mode, (txn.tableLockSet mode).Nodup) (mode : LockMode) :
    ((w.bookKeeping txn).tableLockSet mode).Nodup := by
  cases w with
  | table o lockMode =>
    simp only [bookKeeping, Transaction.bookKeeping_tableLockSet, Function.update_apply]
    split_ifs
    · exact (h _).insert
    · exact h _
  | row | rowAtTable => simpa [bookKeeping] using h mode

/-- The only entry a grant adds to the table lock sets is the table it waited for. -/
theorem mem_bookKeeping_tableLockSet {w : Waiting R}
    (h : oid ∈ (w.bookKeeping txn).tableLockSet mode) :
    oid ∈ txn.tableLockSet mode ∨ w = .table oid mode := by
  cases w with
  | table o lockMode =>
    simp only [bookKeeping, Transaction.bookKeeping_tableLockSet, Function.update_apply] at h
    split_ifs at h with hm
    · subst hm
      rcases List.mem_insert_iff.mp h with rfl | h
      · exact .inr rfl
      · exact .inl h
    · exact .inl h
  | row | rowAtTable => exact .inl (by simpa [bookKeeping] using h)

theorem mem_bookKeeping_exclusive {w : Waiting R} {rid : R}
    (h : rid ∈ txn.exclusiveRowLockSet oid) : rid ∈ (w.bookKeeping txn).exclusiveRowLockSet oid := by
  cases w with
  | table => simpa [bookKeeping] using h
  | row | rowAtTable => exact Transaction.mem_bookKeepingRow_exclusive h

end Waiting

/-! ## The invariant of one transaction -/

namespace LockManager

open LockRequestQueue

variable {R : Type} {m m' m₁ : LockManager R} {t : Int} {lockMode : LockMode}
  {oid : Nat} {rid : R}

/-- What the lock manager keeps of transaction `t`: its table lock sets have no duplicates and
each entry is backed by a granted request of its mode; each of its row X requests is covered by
its request on the request's table, and is in its exclusive row lock set unless its thread still
waits for it. -/
structure TxnOk (m : LockManager R) (t : Int) : Prop where
  tableSet_nodup : ∀ mode, ((m.txns t).tableLockSet mode).Nodup
  tableSet_granted : ∀ mode oid, oid ∈ (m.txns t).tableLockSet mode →
    HoldsGranted (m.queue (.table oid)) t mode
  row_covered : ∀ rid x, x ∈ (m.queue (.row rid)).requestQueue → x.txnId = t →
    x.lockMode = .exclusive → Covers (m.queue (.table x.oid)) t ∧
      (rid ∈ (m.txns t).exclusiveRowLockSet x.oid ∨
        m.waiting t = some (.row x.oid rid .exclusive))

/-- `t`'s part of the state is kept when its lock sets are unchanged, it goes on waiting where it
waited, and every queue keeps its requests. -/
theorem TxnOk.frame (h : m.TxnOk t)
    (htable : (m'.txns t).tableLockSet = (m.txns t).tableLockSet)
    (hexcl : (m'.txns t).exclusiveRowLockSet = (m.txns t).exclusiveRowLockSet)
    (hwait : ∀ w, m.waiting t = some w → m'.waiting t = some w)
    (hkeep : ∀ k, Keeps t (m.queue k) (m'.queue k)) : m'.TxnOk t where
  tableSet_nodup mode := htable ▸ h.tableSet_nodup mode
  tableSet_granted mode oid hoid := (h.tableSet_granted mode oid (htable ▸ hoid)).keeps (hkeep _)
  row_covered rid x hx ht hm := by
    obtain ⟨x₀, hx₀, hraised⟩ := (hkeep _).mem_right hx ht
    obtain ⟨ht₀, hm₀, ho₀, -⟩ := hraised.same
    obtain ⟨hcov, hrec⟩ := h.row_covered rid x₀ hx₀ (ht₀ ▸ ht) (hm₀ ▸ hm)
    rw [← ho₀] at hcov hrec
    rw [hexcl]
    exact ⟨hcov.keeps (hkeep _), hrec.imp id (hwait _)⟩

/-- A thread that does not wait starts to wait. -/
theorem TxnOk.setWaiting_of_none (h : m.TxnOk t) (hw : m.waiting t = none)
    (w : Option (Waiting R)) : (m.setWaiting t w).TxnOk t :=
  h.frame rfl rfl (fun _ hw' => by simp [hw] at hw') fun _ => by
    rw [setWaiting_queue]
    exact Keeps.refl _ _

theorem TxnOk.abortTxn (h : m.TxnOk t) : (m.abortTxn t).TxnOk t :=
  h.frame (by unfold LockManager.abortTxn; simp) (by unfold LockManager.abortTxn; simp) (fun _ => id) fun _ => Keeps.refl _ _

/-! ## The other transactions -/

/-- A section of `t`'s thread as every other transaction sees it: their lock sets and waits are
unchanged, and every queue keeps their requests. -/
structure OnlyActor (t : Int) (m m' : LockManager R) : Prop where
  txns : ∀ u, u ≠ t → m'.txns u = m.txns u
  waiting : ∀ u, u ≠ t → m'.waiting u = m.waiting u
  keeps : ∀ u, u ≠ t → ∀ k, Keeps u (m.queue k) (m'.queue k)

theorem OnlyActor.txnOk (ho : OnlyActor t m m') {u : Int} (h : m.TxnOk u) (hu : u ≠ t) :
    m'.TxnOk u :=
  h.frame (by rw [ho.txns u hu]) (by rw [ho.txns u hu]) (fun _ hw => (ho.waiting u hu).trans hw)
    (ho.keeps u hu)

theorem onlyActor_refl : OnlyActor t m m :=
  ⟨fun _ _ => rfl, fun _ _ => rfl, fun _ _ _ => Keeps.refl _ _⟩

theorem OnlyActor.setTxn (h : OnlyActor t m m₁) (txn : Transaction R) :
    OnlyActor t m (m₁.setTxn t txn) where
  txns u hu := by simpa [Function.update_noteq hu] using h.txns u hu
  waiting := h.waiting
  keeps := h.keeps

theorem OnlyActor.setWaiting (h : OnlyActor t m m₁) (w : Option (Waiting R)) :
    OnlyActor t m (m₁.setWaiting t w) where
  txns := h.txns
  waiting u hu := by simpa [Function.update_noteq hu] using h.waiting u hu
  keeps := h.keeps

variable [DecidableEq R]

theorem onlyActor_setQueue {k : Resource R} {q : LockRequestQueue}
    (hk : ∀ u, u ≠ t → Keeps u (m.queue k) q) : OnlyActor t m (m.setQueue k q) where
  txns _ _ := by simp
  waiting _ _ := by simp
  keeps u hu k' := by
    by_cases hk' : k' = k
    · subst hk'
      simpa using hk u hu
    · simpa [Function.update_noteq hk'] using Keeps.refl u (m.queue k')

/-! ## The caller of each call -/

/-- The table `UpdateLock` of a thread that does not wait: an upgrade takes the old mode out of the
lock set, and the caller's covering requests stay covering. -/
theorem TxnOk.updateLock (hinv : m.Inv) (h : m.TxnOk t) (hw : m.waiting t = none)
    (hu : m.updateLock t lockMode oid = .ok m') :
    OnlyActor t m m' ∧ m'.TxnOk t ∧ m'.waiting t = none := by
  obtain ⟨old, q, hq, rfl⟩ := updateLock_ok hu
  have hqok : (m.queue (.table oid)).QueueOk := hinv.queue_ok _
  have hcov : ∀ o, Covers (m.queue (.table o)) t →
      Covers (Function.update m.queue (.table oid) q (.table o)) t := by
    intro o hc
    by_cases ho : o = oid
    · subst ho
      simpa using hc.updateLock_self hqok hq
    · simpa [ho] using hc
  refine ⟨(onlyActor_setQueue (k := .table oid) fun u hu =>
    keeps_updateLock (Ne.symm hu) hq).setTxn _, ⟨?_, ?_, fun rid x hx ht hm => ?_⟩, by simpa using hw⟩
  · intro mode
    rcases old with _ | before
    · simpa using h.tableSet_nodup mode
    · by_cases hmb : mode = before
      · subst hmb
        simpa using (h.tableSet_nodup mode).erase oid
      · simpa [hmb] using h.tableSet_nodup mode
  · intro mode o hoid
    rcases old with _ | before
    · simp only [setTxn_txns, Function.update_same, Option.elim_none] at hoid
      by_cases ho : o = oid
      · subst ho
        simpa using (h.tableSet_granted mode o hoid).updateLock_none hq
      · simpa [ho] using h.tableSet_granted mode o hoid
    · simp only [setTxn_txns, Function.update_same, Option.elim_some,
        Transaction.bookKeepingRemove_tableLockSet] at hoid
      have hmem : o ∈ (m.txns t).tableLockSet mode := by
        by_cases hmb : mode = before
        · subst hmb
          exact List.mem_of_mem_erase (by simpa using hoid)
        · simpa [hmb] using hoid
      by_cases ho : o = oid
      · subst ho
        obtain rfl := (h.tableSet_granted mode o hmem).updateLock_some hqok hq
        exact absurd (by simpa using hoid) ((h.tableSet_nodup mode).not_mem_erase)
      · simpa [ho] using h.tableSet_granted mode o hmem
  · obtain ⟨hc, hrec⟩ := h.row_covered rid x (by simpa using hx) ht hm
    refine ⟨by simpa using hcov _ hc, .inl ?_⟩
    have hrec := hrec.resolve_right (by simp [hw])
    rcases old with _ | before <;> simpa using hrec

/-- `LockRow`'s row path: a new row X request is covered, since `IsTableFit` found IX, X or SIX in
the lock sets. -/
theorem TxnOk.updateLockRow (hinv : m.Inv) (h : m.TxnOk t) (hw : m.waiting t = none)
    (hfit : (m.txns t).isTableFit lockMode oid = true)
    (hu : m.updateLockRow t lockMode oid rid = .ok m₁) :
    OnlyActor t m (m₁.setWaiting t (some (.row oid rid lockMode))) ∧
      (m₁.setWaiting t (some (.row oid rid lockMode))).TxnOk t := by
  obtain ⟨old, q, hq, rfl⟩ := updateLockRow_ok hu
  have hexcl : ∀ {rid' : R} {o : Nat}, rid' ∈ (m.txns t).exclusiveRowLockSet o → rid' ≠ rid →
      rid' ∈ ((old.elim (m.txns t) fun _ => (m.txns t).bookKeepingRemoveRow lockMode oid rid)
        ).exclusiveRowLockSet o := by
    intro rid' o hmem hne
    rcases old with _ | before
    · exact hmem
    · exact Transaction.mem_bookKeepingRemoveRow_exclusive hmem hne
  refine ⟨((onlyActor_setQueue (k := .row rid) fun u hu =>
    keeps_updateLock (Ne.symm hu) hq).setTxn _).setWaiting _, ⟨fun mode => ?_, fun mode o hoid => ?_,
      fun rid' x hx ht hm => ?_⟩⟩
  · rcases old with _ | before <;> simpa using h.tableSet_nodup mode
  · have hmem : o ∈ (m.txns t).tableLockSet mode := by
      rcases old with _ | before <;> simpa using hoid
    simpa using h.tableSet_granted mode o hmem
  · by_cases hr : rid' = rid
    · subst hr
      rcases mem_updateLock_self (hinv.queue_ok (.row rid')) hq (by simpa using hx) ht with
        ⟨rfl, rfl⟩ | rfl
      · obtain ⟨hc, hrec⟩ := h.row_covered rid' x (by simpa using hx) ht hm
        exact ⟨by simpa using hc, .inl (by simpa using hrec.resolve_right (by simp [hw]))⟩
      · obtain rfl : lockMode = .exclusive := hm
        refine ⟨?_, .inr (by simp)⟩
        have hfit' : oid ∈ (m.txns t).tableLockSet .intentionExclusive ∨
            oid ∈ (m.txns t).tableLockSet .exclusive ∨
            oid ∈ (m.txns t).tableLockSet .sharedIntentionExclusive := by
          simpa [Transaction.isTableFit, Transaction.isTableLocked, or_assoc] using hfit
        have hcov : Covers (m.queue (.table oid)) t := by
          rcases hfit' with hmem | hmem | hmem <;>
            exact (h.tableSet_granted _ _ hmem).covers (by decide)
        simpa using hcov
    · obtain ⟨hc, hrec⟩ := h.row_covered rid' x (by simpa [hr] using hx) ht hm
      exact ⟨by simpa using hc,
        .inl (by simpa using hexcl (hrec.resolve_right (by simp [hw])) hr)⟩

theorem TxnOk.lockTable (hinv : m.Inv) (h : m.TxnOk t) (hw : m.waiting t = none)
    (hl : m.lockTable t lockMode oid = .ok m') : OnlyActor t m m' ∧ m'.TxnOk t := by
  obtain ⟨m₁, hu, rfl⟩ := lockTable_ok hl
  obtain ⟨ho, h₁, hw₁⟩ := h.updateLock hinv hw hu
  exact ⟨ho.setWaiting _, h₁.setWaiting_of_none hw₁ _⟩

theorem TxnOk.lockRow (hinv : m.Inv) (h : m.TxnOk t) (hw : m.waiting t = none)
    (hl : m.lockRow t lockMode oid rid = .ok m') : OnlyActor t m m' ∧ m'.TxnOk t := by
  obtain ⟨hfit, ⟨m₁, hu, rfl⟩ | ⟨m₁, hu, rfl, -⟩⟩ := lockRow_ok hl
  · exact h.updateLockRow hinv hw hfit hu
  · obtain ⟨ho, h₁, hw₁⟩ := h.updateLock hinv hw hu
    exact ⟨ho.setWaiting _, h₁.setWaiting_of_none hw₁ _⟩

/-- A grant attempt: when `GrantLock` returns true, the caller has a granted request of the mode
it waited for, which `BookKeeping` records, and a row X request it waited for is recorded. -/
theorem TxnOk.grant (hinv : m.Inv) (h : m.TxnOk t) {w : Waiting R} (hw : m.waiting t = some w) :
    OnlyActor t m (m.grant t w) ∧ (m.grant t w).TxnOk t := by
  have hkeep : ∀ u k, Keeps u (m.queue k) (Function.update m.queue w.resource
      ((m.queue w.resource).grantLock t w.lockMode).2 k) := by
    intro u k
    by_cases hk : k = w.resource
    · subst hk
      simpa using keeps_grantLock
    · simpa [Function.update_noteq hk] using Keeps.refl u (m.queue k)
  have ho : OnlyActor t m (m.setQueue w.resource ((m.queue w.resource).grantLock t w.lockMode).2) :=
    onlyActor_setQueue fun _ _ => keeps_grantLock
  cases hr : ((m.queue w.resource).grantLock t w.lockMode).1
  · rw [grant_of_false hr]
    exact ⟨ho, h.frame (by simp) (by simp) (fun _ => by simp) fun k => by simpa using hkeep t k⟩
  · rw [grant_of_true hr]
    refine ⟨(ho.setTxn _).setWaiting _, ⟨fun mode => ?_, fun mode o hoid => ?_,
      fun rid x hx ht hm => ?_⟩⟩
    · simpa using w.bookKeeping_tableLockSet_nodup h.tableSet_nodup mode
    · simp only [setWaiting_txns, setTxn_txns, setQueue_txns, Function.update_same] at hoid
      rcases Waiting.mem_bookKeeping_tableLockSet hoid with hmem | rfl
      · simpa using (h.tableSet_granted mode o hmem).keeps (hkeep t _)
      · obtain ⟨y, hy, hyt, hyg⟩ := grantLock_granted hr
        have hym : y.lockMode = mode :=
          (hinv.waiting_ok t _ hw).grantLock y hy (by simp [isTxn, hyt])
        simpa [Waiting.resource] using (⟨y, hy, hyt, hyg, hym⟩ : HoldsGranted _ t mode)
    · obtain ⟨x₀, hx₀, hraised⟩ := (hkeep t (.row rid)).mem_right (by simpa using hx) ht
      obtain ⟨ht₀, hm₀, ho₀, -⟩ := hraised.same
      obtain ⟨hc, hrec⟩ := h.row_covered rid x₀ hx₀ (ht₀ ▸ ht) (hm₀ ▸ hm)
      rw [← ho₀] at hc hrec
      refine ⟨by simpa using hc.keeps (hkeep t _), .inl ?_⟩
      simp only [setWaiting_txns, setTxn_txns, setQueue_txns, Function.update_same]
      rcases hrec with hmem | hwr
      · exact Waiting.mem_bookKeeping_exclusive hmem
      · obtain rfl := Option.some.inj (hw.symm.trans hwr)
        exact Transaction.mem_bookKeepingRow_self

/-- `UnlockTable` finds the exclusive row lock set of the table empty, so the transaction has no
row X request on it, and the request it removes covers none. -/
theorem TxnOk.unlockTable (hinv : m.Inv) (h : m.TxnOk t) (hw : m.waiting t = none)
    (hu : m.unlockTable t oid = .ok m') : OnlyActor t m m' ∧ m'.TxnOk t := by
  obtain ⟨hexcl, -, mode, q, hq, rfl⟩ := unlockTable_ok hu
  have hqok : (m.queue (.table oid)).QueueOk := hinv.queue_ok _
  refine ⟨(onlyActor_setQueue (k := .table oid) fun u hu =>
    keeps_unlockRequest (Ne.symm hu) hq).setTxn _, ⟨fun mode' => ?_, fun mode' o hoid => ?_,
      fun rid x hx ht hm => ?_⟩⟩
  · by_cases hmm : mode' = mode
    · subst hmm
      simpa using (h.tableSet_nodup _).erase oid
    · simpa [hmm] using h.tableSet_nodup mode'
  · simp only [setTxn_txns, Function.update_same, Transaction.bookKeepingRemove_tableLockSet,
      Transaction.unLockChangeState_tableLockSet] at hoid
    have hmem : o ∈ (m.txns t).tableLockSet mode' := by
      by_cases hmm : mode' = mode
      · subst hmm
        exact List.mem_of_mem_erase (by simpa using hoid)
      · simpa [hmm] using hoid
    by_cases ho : o = oid
    · subst ho
      obtain rfl := (h.tableSet_granted mode' o hmem).unlockRequest hqok hq
      exact absurd (by simpa using hoid) ((h.tableSet_nodup mode').not_mem_erase)
    · simpa [ho] using h.tableSet_granted mode' o hmem
  · obtain ⟨hc, hrec⟩ := h.row_covered rid x (by simpa using hx) ht hm
    have hrec := hrec.resolve_right (by simp [hw])
    have ho : x.oid ≠ oid := fun ho => by
      rw [ho, hexcl] at hrec
      cases hrec
    exact ⟨by simpa [ho] using hc, .inl (by simpa using hrec)⟩

/-- `UnlockRow` removes the transaction's only request on the row. -/
theorem TxnOk.unlockRow (hinv : m.Inv) (h : m.TxnOk t) (hw : m.waiting t = none)
    (hu : m.unlockRow t oid rid = .ok m') : OnlyActor t m m' ∧ m'.TxnOk t := by
  obtain ⟨mode, q, hq, rfl⟩ := unlockRow_ok hu
  refine ⟨(onlyActor_setQueue (k := .row rid) fun u hu =>
    keeps_unlockRequest (Ne.symm hu) hq).setTxn _, ⟨fun mode' => by simpa using h.tableSet_nodup mode',
      fun mode' o hoid => by simpa using h.tableSet_granted mode' o (by simpa using hoid),
      fun rid' x hx ht hm => ?_⟩⟩
  by_cases hr : rid' = rid
  · subst hr
    exact absurd ht (unlockRequest_txnId_ne (hinv.queue_ok (.row rid')) hq (by simpa using hx))
  · obtain ⟨hc, hrec⟩ := h.row_covered rid' x (by simpa [hr] using hx) ht hm
    have hrec : rid' ∈ ((m.txns t).unLockChangeState mode).exclusiveRowLockSet x.oid := by
      simpa using hrec.resolve_right (by simp [hw])
    exact ⟨by simpa using hc,
      .inl (by simpa using Transaction.mem_bookKeepingRemoveRow_exclusive hrec hr)⟩

/-! ## Runs of lock calls -/

/-- The invariant of this module: the queues are well formed and every transaction's part
holds. -/
structure RowInv (m : LockManager R) : Prop where
  queues : m.Inv
  txn_ok : ∀ t, m.TxnOk t

omit [DecidableEq R] in
theorem rowInv_new (isolationLevel : Int → IsolationLevel) :
    (new isolationLevel : LockManager R).RowInv where
  queues := inv_new isolationLevel
  txn_ok _ := ⟨fun _ => by simp [new, Transaction.begin],
    fun _ _ h => by simp [new, Transaction.begin] at h,
    fun _ _ hx => by simp [new, queue, LockRequestQueue.empty] at hx⟩

omit [DecidableEq R] in
theorem RowInv.of_actor (h : m.RowInv) (hq : m'.Inv) (ho : OnlyActor t m m') (ht : m'.TxnOk t) :
    m'.RowInv :=
  ⟨hq, fun u => if hu : u = t then hu ▸ ht else ho.txnOk (h.txn_ok u) hu⟩

theorem RowInv.call {mayAct : Transaction R → Prop} (h : m.RowInv) (hc : Call mayAct m m') :
    m'.RowInv := by
  have hq := h.queues.call hc
  cases hc with
  | lockTable t _ _ hw _ hl =>
    obtain ⟨ho, ht⟩ := (h.txn_ok t).lockTable h.queues hw hl
    exact h.of_actor hq ho ht
  | lockRow t _ _ _ hw _ hl =>
    obtain ⟨ho, ht⟩ := (h.txn_ok t).lockRow h.queues hw hl
    exact h.of_actor hq ho ht
  | grant t _ hw _ =>
    obtain ⟨ho, ht⟩ := (h.txn_ok t).grant h.queues hw
    exact h.of_actor hq ho ht
  | unlockTable t _ hw _ hu =>
    obtain ⟨ho, ht⟩ := (h.txn_ok t).unlockTable h.queues hw hu
    exact h.of_actor hq ho ht
  | unlockRow t _ _ hw _ hu =>
    obtain ⟨ho, ht⟩ := (h.txn_ok t).unlockRow h.queues hw hu
    exact h.of_actor hq ho ht
  | lockTableAbort t | lockRowAbort t | unlockTableAbort t | unlockRowAbort t =>
    exact h.of_actor hq (onlyActor_refl.setTxn _) (h.txn_ok t).abortTxn

/-- The states that lock calls alone reach from `new`, each made by a transaction that `mayAct`
allows: no round of the detector, and no removal of an aborted waiter's request. -/
def ReachableByCalls (mayAct : Transaction R → Prop) (isolationLevel : Int → IsolationLevel)
    (m : LockManager R) : Prop :=
  Relation.ReflTransGen (Call mayAct) (new isolationLevel) m

theorem RowInv.of_reachableByCalls {mayAct : Transaction R → Prop}
    {isolationLevel : Int → IsolationLevel} (h : ReachableByCalls mayAct isolationLevel m) :
    m.RowInv := by
  induction h with
  | refl => exact rowInv_new isolationLevel
  | tail _ hc ih => exact ih.call hc

theorem grantedCompatible_symm : Symmetric GrantedCompatible :=
  fun _ _ h hb ha => (grantCompatiable_comm _ _).trans (h ha hb)

/-- The request of `x`'s transaction on `x`'s table covers the row X request `x`: granted in IX,
X or SIX, with no other transaction granted S, SIX or X on the table; or an upgrade to X or SIX
that the transaction waits for. -/
def TableCovers (m : LockManager R) (x : LockRequest) : Prop :=
  ∃ y ∈ (m.tableLockMap x.oid).requestQueue, y.txnId = x.txnId ∧
    ((y.granted = true ∧ y.lockMode ∈ [intentionExclusive, exclusive, sharedIntentionExclusive] ∧
      ∀ z ∈ (m.tableLockMap x.oid).requestQueue, z.txnId ≠ x.txnId → z.granted = true →
        z.lockMode ∉ [shared, sharedIntentionExclusive, exclusive]) ∨
     (y.granted = false ∧ y.lockMode ∈ [exclusive, sharedIntentionExclusive]))

/-- In every state that lock calls reach, every row X request is covered on its table. -/
theorem rowExclusive_tableCovered {mayAct : Transaction R → Prop}
    {isolationLevel : Int → IsolationLevel} (h : ReachableByCalls mayAct isolationLevel m)
    {rid : R} {x : LockRequest} (hx : x ∈ (m.rowLockMap rid).requestQueue)
    (hmode : x.lockMode = .exclusive) : TableCovers m x := by
  have hinv := RowInv.of_reachableByCalls h
  obtain ⟨y, hy, hyt, hc⟩ := ((hinv.txn_ok x.txnId).row_covered rid x hx rfl hmode).1
  refine ⟨y, hy, hyt, (coversRowExclusive_iff.mp hc).imp
    (fun hg => ⟨hg.1, hg.2, fun z hz hzt hzg hzm => ?_⟩) id⟩
  have hcompat := (hinv.queues.queue_ok (.table x.oid)).compatible.forall grantedCompatible_symm
    hy hz (fun hyz => hzt (hyz ▸ hyt)) hg.1 hzg
  rw [grantCompatiable_of_covers hg.2 hzm] at hcompat
  cases hcompat

/-- Transaction 1 locks table 0 in IX and row 0 of it in X; transaction 2 asks for S on table 0 and
waits; transaction 1 upgrades its table lock to X, which erases its granted IX; transaction 2's next
attempt is granted S.  Transaction 3 locks row 1 of table 0 in S with no lock on the table.  No
transaction is aborted. -/
theorem rowLock_without_tableLock :
    ∃ m : LockManager Nat, ReachableByCalls (fun txn => txn.state ≠ .aborted)
      (fun _ => .repeatableRead) m ∧
      (∀ t ∈ [1, 2, 3], (m.txns t).state = .growing) ∧
      (m.rowLockMap 0).requestQueue = [⟨1, .exclusive, 0, true⟩] ∧
      (m.tableLockMap 0).requestQueue = [⟨2, .shared, 0, true⟩, ⟨1, .exclusive, 0, false⟩] ∧
      (m.rowLockMap 1).requestQueue = [⟨3, .shared, 0, true⟩] := by
  have reach : ReachableByCalls (fun txn => txn.state ≠ .aborted) (fun _ => .repeatableRead) _ :=
    .tail (.tail (.tail (.tail (.tail (.tail (.tail (.tail (.single
      (.lockTable 1 .intentionExclusive 0 (by rfl) (by decide) (by rfl)))
      (.grant 1 (.table 0 .intentionExclusive) (by rfl) (by decide)))
      (.lockRow 1 .exclusive 0 0 (by rfl) (by decide) (by rfl)))
      (.grant 1 (.row 0 0 .exclusive) (by rfl) (by decide)))
      (.lockTable 2 .shared 0 (by rfl) (by decide) (by rfl)))
      (.lockTable 1 .exclusive 0 (by rfl) (by decide) (by rfl)))
      (.grant 2 (.table 0 .shared) (by rfl) (by decide)))
      (.lockRow 3 .shared 0 1 (by rfl) (by decide) (by rfl)))
      (.grant 3 (.row 0 1 .shared) (by rfl) (by decide))
  exact ⟨_, reach, by decide, rfl, rfl, rfl⟩

/-! ## Lock sets against queues -/

/-- Two runs after which a transaction that waits for no lock has a row in its shared row lock
set with no granted S request for it.  First, transaction 1 locks table 0 in IX and row 0 of it in
S, then upgrades the row to X: the upgrade takes X, not S, out of the row lock sets.  Second, at
`READ_COMMITTED`, transaction 2 locks table 1 in X and unlocks it, which makes it `SHRINKING`, then
locks row 5 of table 0 in S: the request is queued and granted at the queue of table 0, the row
goes into the shared row lock set, and the table into no table lock set. -/
theorem lockSets_disagree_with_queues :
    (∃ m : LockManager Nat, Reachable (fun _ => .repeatableRead) m ∧ m.waiting 1 = none ∧
      0 ∈ (m.txns 1).sharedRowLockSet 0 ∧
      (m.rowLockMap 0).requestQueue = [⟨1, .exclusive, 0, true⟩]) ∧
    (∃ m : LockManager Nat, Reachable (fun _ => .readCommitted) m ∧ m.waiting 2 = none ∧
      5 ∈ (m.txns 2).sharedRowLockSet 0 ∧ (m.rowLockMap 5).requestQueue = [] ∧
      ⟨2, .shared, 0, true⟩ ∈ (m.tableLockMap 0).requestQueue ∧
      0 ∉ (m.txns 2).tableLockSet .shared) := by
  constructor
  · have r₁ : Reachable (fun _ => .repeatableRead) (_ : LockManager Nat) :=
      .single (.call (.lockTable 1 .intentionExclusive 0 (by rfl) trivial (by rfl)))
    have r₂ := r₁.tail (.call (.grant 1 (.table 0 .intentionExclusive) (by rfl) trivial))
    have r₃ := r₂.tail (.call (.lockRow 1 .shared 0 0 (by rfl) trivial (by rfl)))
    have r₄ := r₃.tail (.call (.grant 1 (.row 0 0 .shared) (by rfl) trivial))
    have r₅ := r₄.tail (.call (.lockRow 1 .exclusive 0 0 (by rfl) trivial (by rfl)))
    have reach := r₅.tail (.call (.grant 1 (.row 0 0 .exclusive) (by rfl) trivial))
    exact ⟨_, reach, rfl, by decide, rfl⟩
  · have r₁ : Reachable (fun _ => .readCommitted) (_ : LockManager Nat) :=
      .single (.call (.lockTable 2 .exclusive 1 (by rfl) trivial (by rfl)))
    have r₂ := r₁.tail (.call (.grant 2 (.table 1 .exclusive) (by rfl) trivial))
    have r₃ := r₂.tail (.call (.unlockTable 2 1 (by rfl) trivial (by rfl)))
    have r₄ := r₃.tail (.call (.lockRow 2 .shared 0 5 (by rfl) trivial (by rfl)))
    have reach := r₄.tail (.call (.grant 2 (.rowAtTable 0 5 .shared) (by rfl) trivial))
    exact ⟨_, reach, rfl, by decide, rfl, by decide, by decide⟩

end LockManager

end Bustub
