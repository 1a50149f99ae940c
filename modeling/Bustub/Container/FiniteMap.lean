import Bustub.Container.SplitLoop

/-!
# The table is a finite map

Read through `Find`, a table denotes the finite map `k ↦ t.find hash k`.  Under the directory
invariant every call acts on that map as on a plain one: `Remove` unbinds the key and reports
whether it was bound (`find_remove`, `remove_fst`); `Insert` binds it, overwriting
(`find_insert`); a split, and so the whole split loop, leaves the map alone (`find_split`), since
each entry moves to the new bucket its own hash selects.

`Call` and `Ret` are the calls and what they return; `Run` is a sequence of calls that return,
from a given table, below depth 31 as `Step` is.  `mapStep` is the finite map the table is meant
to be.  `run_refines_map` says a run from the constructor returns what the finite map returns,
call by call, and ends in a table that denotes the map's final state.  Two `Insert` calls can
take the table to depth 31, after which every `IndexOf` evaluates an undefined mask
(`run_overflows_indexMask`).
-/

namespace Bustub.ExtendibleHashTable

variable {K V : Type} [DecidableEq K] {hash : K → Nat}

/-! ## One bucket rewritten -/

/-- Rewriting the bucket of `key` so that it maps `key` to `r` and every other key as before
maps `key` to `r` in the whole table and every other key as before. -/
theorem find_setBucket (t : ExtendibleHashTable K V) (key : K) (b : Bucket K V) (r : Option V)
    (hb : ∀ k, Bucket.findIn k b.list =
      if k = key then r else Bucket.findIn k (t.bucketAt (t.indexOf hash key)).list) (k : K) :
    (t.setBucket (t.slot (t.indexOf hash key)) b).find hash k =
      if k = key then r else t.find hash k := by
  unfold ExtendibleHashTable.find
  rw [setBucket_indexOf, setBucket_bucketAt]
  split_ifs with hs hk hk
  · subst hk; simp [Bucket.find, hb]
  · simp only [Bucket.find, hb, if_neg hk, bucketAt_eq_of_slot_eq hs]
  · exact absurd (hk ▸ rfl) hs
  · rfl

theorem find_remove {t : ExtendibleHashTable K V} (h : Inv hash t) (key k : K) :
    (t.remove hash key).2.find hash k = if k = key then none else t.find hash k :=
  find_setBucket t key _ none
    (fun k => Bucket.findIn_remove_snd (h.keys_nodup _ (indexOf_lt hash t key)) key k) k

theorem remove_fst (t : ExtendibleHashTable K V) (key : K) :
    (t.remove hash key).1 = (t.find hash key).isSome :=
  Bucket.remove_fst _ key

theorem find_insertAtIndex {t : ExtendibleHashTable K V} (key : K) (value : V)
    (hroom : (t.bucketAt (t.indexOf hash key)).find key ≠ none ∨
      (t.bucketAt (t.indexOf hash key)).isFull t.bucketSize = false) (k : K) :
    (t.insertAtIndex hash key value).find hash k = if k = key then some value else t.find hash k := by
  unfold ExtendibleHashTable.insertAtIndex
  refine find_setBucket t key _ _ (fun k => ?_) k
  show Bucket.findIn k ((t.bucketAt (t.indexOf hash key)).insert t.bucketSize key value).2.list = _
  by_cases hfind : Bucket.findIn key (t.bucketAt (t.indexOf hash key)).list = none
  · have hroom' : (t.bucketAt (t.indexOf hash key)).list.length ≠ t.bucketSize := by
      simpa [Bucket.find, hfind, Bucket.isFull] using hroom
    rw [Bucket.insert_of_absent value hfind hroom']
    exact Bucket.findIn_append_of_none value k hfind
  · exact (Bucket.insert_of_present value hfind).2.2 k

/-! ## Splits move no binding -/

theorem find_double {t : ExtendibleHashTable K V} (h : Inv hash t) (k : K) :
    t.double.find hash k = t.find hash k := by
  unfold ExtendibleHashTable.find
  rw [double_bucketAt h.dir_length (by rw [← double_globalDepth]; exact indexOf_lt hash _ k),
    indexOf_eq, indexOf_eq, double_globalDepth, mod_mod_two_pow (Nat.le_succ _)]

theorem find_splitBucket {t : ExtendibleHashTable K V} (h : Inv hash t) {key : K} {i0 ld : Nat}
    (hi0 : i0 < 2 ^ t.globalDepth) (hld : (t.bucketAt i0).depth = ld) (hlt : ld < t.globalDepth)
    (hkey : hash key % 2 ^ ld = i0 % 2 ^ ld) (k : K) :
    (t.splitBucket hash key i0 ld).find hash k = t.find hash k := by
  have hk := indexOf_lt hash t k
  unfold ExtendibleHashTable.find
  rw [show (t.splitBucket hash key i0 ld).indexOf hash k = t.indexOf hash k from rfl,
    splitBucket_bucketAt h hi0 hkey hk]
  split_ifs with hA
  · have hbit : (t.indexOf hash k).testBit ld = (hash k).testBit ld := by
      rw [indexOf_eq, Nat.testBit_mod_two_pow]; simp [hlt]
    have hs : t.slot (t.indexOf hash k) = t.slot i0 :=
      (h.slot_eq_iff i0 hi0 _ hk).mpr (hld ▸ hA)
    simp only [Bucket.find]
    rw [Bucket.findIn_filter (fun k' => (hash k').testBit ld == (t.indexOf hash k).testBit ld)
      (by simp [hbit]), bucketAt_eq_of_slot_eq hs]
  · rfl

/-- One iteration of the split loop leaves every binding where `Find` sees it. -/
theorem find_split {t : ExtendibleHashTable K V} (h : Inv hash t) (key k : K) :
    (t.split hash key (t.indexOf hash key)).find hash k = t.find hash k := by
  have hi := indexOf_lt hash t key
  have hle := h.depth_le _ hi
  have hkey : ∀ ld ≤ t.globalDepth,
      hash key % 2 ^ ld = t.indexOf hash key % 2 ^ ld := fun ld hld => by
    rw [indexOf_eq, mod_mod_two_pow hld]
  unfold ExtendibleHashTable.split
  dsimp only
  split_ifs with hd
  · have hi' : t.indexOf hash key < 2 ^ (t.globalDepth + 1) :=
      hi.trans (Nat.pow_lt_pow_right Nat.one_lt_two (Nat.lt_succ_self _))
    have hb : t.double.bucketAt (t.indexOf hash key) = t.bucketAt (t.indexOf hash key) := by
      rw [double_bucketAt h.dir_length hi', Nat.mod_eq_of_lt hi]
    rw [find_splitBucket h.double hi' (by rw [hb]) (by simp [hd]) (hkey _ hle), find_double h]
  · exact find_splitBucket h hi rfl (lt_of_le_of_ne hle hd) (hkey _ hle) k

theorem find_splitLoop (key : K) (fuel : Nat) :
    ∀ {t t' : ExtendibleHashTable K V}, Inv hash t → t.splitLoop hash key fuel = some t' →
      ∀ k, t'.find hash k = t.find hash k := by
  induction fuel with
  | zero =>
    intro t t' h hs
    unfold ExtendibleHashTable.splitLoop at hs
    split_ifs at hs
    cases hs
    exact fun _ => rfl
  | succ n ih =>
    intro t t' h hs k
    unfold ExtendibleHashTable.splitLoop at hs
    split_ifs at hs
    · rw [ih (h.split key) hs k, find_split h key k]
    · cases hs; rfl

/-- `Insert` that returns binds the key to the value and leaves the other keys. -/
theorem find_insert {t t' : ExtendibleHashTable K V} (h : Inv hash t) {fuel : Nat} {key : K}
    {value : V} (hins : t.insert hash fuel key value = some t') (k : K) :
    t'.find hash k = if k = key then some value else t.find hash k := by
  unfold ExtendibleHashTable.insert at hins
  split_ifs at hins with hfound
  · cases hins
    exact find_insertAtIndex key value (.inl (Option.isSome_iff_ne_none.mp hfound)) k
  · obtain ⟨t1, hs, rfl⟩ := Option.map_eq_some'.mp hins
    rw [find_insertAtIndex key value (.inr (h.splitLoop key fuel hs).2) k,
      find_splitLoop key fuel h hs k]

/-! ## Runs -/

/-- A call on the table. -/
inductive Call (K V : Type)
  | insert (key : K) (value : V)
  | remove (key : K)
  | find (key : K)

/-- What a call returns: nothing for `Insert`, the `bool` of `Remove`, and for `Find` the value
it stores through its out-parameter when it returns `true`. -/
inductive Ret (V : Type)
  | none
  | removed (present : Bool)
  | found (value : Option V)
  deriving DecidableEq

variable (hash)

/-- A sequence of calls that return, from table `t` to table `t'`, with what each returned.  An
`Insert` returns with `IndexOf`'s mask defined at the depth it ends at, as in `Step`. -/
inductive Run : ExtendibleHashTable K V → List (Call K V) → ExtendibleHashTable K V →
    List (Ret V) → Prop
  | nil (t : ExtendibleHashTable K V) : Run t [] t []
  | insert {t t' t'' : ExtendibleHashTable K V} {calls : List (Call K V)} {rets : List (Ret V)}
      (fuel : Nat) (key : K) (value : V) :
      t.insert hash fuel key value = some t' → (indexMask t'.globalDepth).isSome →
      Run t' calls t'' rets →
      Run t (.insert key value :: calls) t'' (.none :: rets)
  | remove {t t'' : ExtendibleHashTable K V} {calls : List (Call K V)} {rets : List (Ret V)}
      (key : K) : Run (t.remove hash key).2 calls t'' rets →
      Run t (.remove key :: calls) t'' (.removed (t.remove hash key).1 :: rets)
  | find {t t'' : ExtendibleHashTable K V} {calls : List (Call K V)} {rets : List (Ret V)}
      (key : K) : Run t calls t'' rets → Run t (.find key :: calls) t'' (.found (t.find hash key) :: rets)

/-- The finite map a table stands for, as a specification: one call. -/
def mapStep (m : K → Option V) : Call K V → (K → Option V) × Ret V
  | .insert key value => (Function.update m key (some value), .none)
  | .remove key => (Function.update m key none, .removed (m key).isSome)
  | .find key => (m, .found (m key))

/-- The finite map after a sequence of calls, and what each call returned. -/
def mapRun (m : K → Option V) : List (Call K V) → (K → Option V) × List (Ret V)
  | [] => (m, [])
  | c :: cs =>
      let r := mapStep m c
      let rest := mapRun r.1 cs
      (rest.1, r.2 :: rest.2)

variable {hash}

/-- From a table satisfying the invariant and denoting `m`, a run returns what the finite map
returns and ends in a table denoting the map's final state. -/
theorem Run.refines {t t' : ExtendibleHashTable K V} {calls : List (Call K V)} {rets : List (Ret V)}
    (hrun : Run hash t calls t' rets) :
    ∀ {m : K → Option V}, Inv hash t → (∀ k, t.find hash k = m k) →
      rets = (mapRun m calls).2 ∧ ∀ k, t'.find hash k = (mapRun m calls).1 k := by
  induction hrun with
  | nil t => intro m _ hm; exact ⟨rfl, hm⟩
  | insert fuel key value hins _ _ ih =>
    intro m h hm
    obtain ⟨hr, hf⟩ := @ih (Function.update m key (some value)) (h.insert hins) (fun k => by
      rw [find_insert h hins k, Function.update_apply, hm])
    exact ⟨by simp [mapRun, mapStep, hr], hf⟩
  | remove key _ ih =>
    intro m h hm
    obtain ⟨hr, hf⟩ := @ih (Function.update m key none) (h.remove key) (fun k => by
      rw [find_remove h key k, Function.update_apply, hm])
    exact ⟨by simp [mapRun, mapStep, hr, remove_fst, hm], hf⟩
  | find key _ ih =>
    intro m h hm
    obtain ⟨hr, hf⟩ := ih h hm
    exact ⟨by simp [mapRun, mapStep, hr, hm], hf⟩

/-- Every sequence of `Insert`, `Remove` and `Find` calls that return, from the constructor
with any `bucket_size`, below depth 31, returns exactly what the finite map returns, and the table
it leaves denotes the map's final state. -/
theorem run_refines_map {bucketSize : Nat} {t : ExtendibleHashTable K V}
    {calls : List (Call K V)} {rets : List (Ret V)}
    (hrun : Run hash (new bucketSize) calls t rets) :
    rets = (mapRun (fun _ => none) calls).2 ∧
      ∀ k, t.find hash k = (mapRun (fun _ => none) calls).1 k :=
  hrun.refines (inv_new bucketSize) (fun _ => by simp [find, Bucket.find, bucketAt, new])

/-- The spec's first scenario as a run: three inserts with `bucket_size = 2`, the third of which
splits, then a `Find` of the third key. -/
theorem run_refines_map_three_keys :
    let t := ((((new 2 : ExtendibleHashTable Nat Nat).insertAtIndex id 1 10).insertAtIndex id 2 20).split
      id 3 0).insertAtIndex id 3 30
    let calls : List (Call Nat Nat) := [.insert 1 10, .insert 2 20, .insert 3 30, .find 3]
    Run id (new 2) calls t [.none, .none, .none, .found (some 30)] ∧
      [.none, .none, .none, .found (some 30)] = (mapRun (fun _ => none) calls).2 ∧
      ∀ k, t.find id k = (mapRun (fun _ => none) calls).1 k :=
  have hrun : Run id (new 2 : ExtendibleHashTable Nat Nat) [.insert 1 10, .insert 2 20, .insert 3 30, .find 3]
      ((((new 2 : ExtendibleHashTable Nat Nat).insertAtIndex id 1 10).insertAtIndex id 2 20).split
        id 3 0 |>.insertAtIndex id 3 30) [.none, .none, .none, .found (some 30)] :=
    .insert 0 1 10 rfl rfl (.insert 0 2 20 rfl rfl (.insert 1 3 30 rfl rfl (.find 3 (.nil _))))
  ⟨hrun, run_refines_map hrun⟩

/-- With `bucket_size` 1 and `std::hash<int>`, `Insert(0)` and `Insert(1 << 30)` both return, at
global depth 31, where the `IndexOf` of every later call evaluates an undefined mask. -/
theorem run_overflows_indexMask :
    ∃ t₁ t₂ : ExtendibleHashTable Int Nat,
      (new 1).insert hashInt 0 0 0 = some t₁ ∧ t₁.insert hashInt 31 (2 ^ 30) 1 = some t₂ ∧
        indexMask t₂.globalDepth = none :=
  have ⟨_, _, hsome, hdepth⟩ := splitLoop_after_insert_zero
  ⟨_, _, rfl, insert_after_insert_zero hsome, indexMask_of_le hdepth.ge⟩

end Bustub.ExtendibleHashTable
