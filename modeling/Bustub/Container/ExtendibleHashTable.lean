import Mathlib.Data.Nat.Bitwise
import Mathlib.Logic.Relation
import Mathlib.Logic.Function.Basic
import Mathlib.Data.List.Nodup

/-!
# The extendible hash table

`ExtendibleHashTable<K, V>` is the page table of the buffer pool; its methods are in
`buffer/buffer_pool_manager_instance.cpp`, after those of the pool.  A directory `dir_` of
`2 ^ global_depth_` shared pointers leads to buckets; several slots may point to one bucket.  The
model gives every bucket an identity: a slot holds the identity of its bucket, and `buckets` maps
identities to bucket contents, so that a write through one slot is seen through every slot that
aliases it, as with `std::shared_ptr`.  Each `make_shared` takes the identity `nextBucket`.

`std::hash<K>` is a parameter `hash : K → Nat`.  The source computes its masks in `int`:
`(1 << global_depth_) - 1` in `IndexOf`, `1 << local_depth` and `local_mask - 1` in the split
loop.  `indexMask` and `localMask` compute them so, with `none` where C++ leaves them undefined:
`1 << 31` is `INT_MIN`, and `INT_MIN - 1` overflows.  Below depth 31 they are `2 ^ d - 1` and
`2 ^ d` (`indexMask_of_lt`, `localMask_of_lt`), and the table's operations use those values, with
`&&&` on `Nat`; `indexOf_eq` turns them into `%`.  So the operations are the source's on tables
whose global depth is below 31, and the runs of later modules stay there.

`Insert`'s split loop need not stop (a full bucket whose keys share every hash bit with the new
key splits forever), so `splitLoop` takes a bound on its iterations and returns `none` when the
loop is still running after them.
-/

namespace Bustub

/-! ## Low-order bits -/

/-- Two numbers agree modulo `2 ^ d` iff they agree on the bits below `d`. -/
theorem mod_two_pow_eq_iff {a b d : Nat} :
    a % 2 ^ d = b % 2 ^ d ↔ ∀ i < d, a.testBit i = b.testBit i := by
  constructor
  · intro h i hi
    have := congrArg (Nat.testBit · i) h
    simpa [Nat.testBit_mod_two_pow, hi] using this
  · intro h
    apply Nat.eq_of_testBit_eq
    intro i
    simp only [Nat.testBit_mod_two_pow]
    by_cases hi : i < d <;> simp [hi, h i]

/-- Agreement on one more low bit: the split of a bucket of depth `d`. -/
theorem mod_two_pow_succ_eq_iff {a b d : Nat} :
    a % 2 ^ (d + 1) = b % 2 ^ (d + 1) ↔ a % 2 ^ d = b % 2 ^ d ∧ a.testBit d = b.testBit d := by
  simp only [mod_two_pow_eq_iff, Nat.lt_succ_iff_lt_or_eq]
  constructor
  · intro h; exact ⟨fun i hi => h i (.inl hi), h d (.inr rfl)⟩
  · rintro ⟨h, hd⟩ i (hi | rfl)
    · exact h i hi
    · exact hd

theorem mod_mod_two_pow {a d e : Nat} (h : d ≤ e) : a % 2 ^ e % 2 ^ d = a % 2 ^ d :=
  Nat.mod_mod_of_dvd a (Nat.pow_dvd_pow 2 h)

theorem and_two_pow_ne_zero {n i : Nat} : n &&& 2 ^ i ≠ 0 ↔ n.testBit i = true := by
  rw [Nat.and_two_pow]
  cases n.testBit i <;> simp

/-! ## The `int` masks -/

/-- `INT_MIN`, `-2 ^ 31`. -/
def intMin : Int := -2147483648

/-- `1 << d` on `int`: C++17 gives `2 ^ d` converted to `int` for `d < 32`, which is `INT_MIN`
at 31, and leaves larger shifts undefined. -/
def shiftLeftOne (d : Nat) : Option Int :=
  if d < 31 then some ((2 ^ d : Nat) : Int) else if d = 31 then some intMin else none

/-- `m - 1` on `int`, undefined below `INT_MIN`. -/
def subOne (m : Int) : Option Int := if intMin < m then some (m - 1) else none

/-- An `int` converted to `size_t`, as `&` with a `size_t` hash converts it. -/
def toSizeT (m : Int) : Nat := (m % ((2 ^ 64 : Nat) : Int)).toNat

/-- `IndexOf`'s mask `(1 << global_depth_) - 1`, as a `size_t`. -/
def indexMask (d : Nat) : Option Nat := (shiftLeftOne d >>= subOne).map toSizeT

/-- The split loop's `local_mask = 1 << local_depth` and `local_mask - 1`, as `size_t`s. -/
def localMask (d : Nat) : Option (Nat × Nat) := do
  let mask ← shiftLeftOne d
  let low ← subOne mask
  pure (toSizeT mask, toSizeT low)

theorem toSizeT_of_lt {m : Nat} (h : m < 2 ^ 64) : toSizeT m = m := by
  rw [toSizeT, Int.emod_eq_of_lt (Int.ofNat_nonneg m) (by exact_mod_cast h), Int.toNat_natCast]

theorem shiftLeftOne_of_lt {d : Nat} (hd : d < 31) : shiftLeftOne d = some ((2 ^ d : Nat) : Int) := by
  simp [shiftLeftOne, hd]

theorem subOne_two_pow (d : Nat) : subOne ((2 ^ d : Nat) : Int) = some ((2 ^ d - 1 : Nat) : Int) := by
  have h := Nat.one_le_two_pow (n := d)
  rw [subOne, if_pos (by simp only [intMin]; omega)]
  congr 1; omega

theorem two_pow_lt_size {d : Nat} (hd : d < 31) : 2 ^ d < 2 ^ 64 :=
  Nat.pow_lt_pow_right (by decide) (by omega)

/-- Below depth 31, `IndexOf`'s mask is `2 ^ d - 1`. -/
theorem indexMask_of_lt {d : Nat} (hd : d < 31) : indexMask d = some (2 ^ d - 1) := by
  rw [indexMask, shiftLeftOne_of_lt hd, Option.bind_eq_bind, Option.some_bind, subOne_two_pow,
    Option.map_some',
    toSizeT_of_lt (by have := two_pow_lt_size hd; omega)]

/-- From depth 31 on, `IndexOf`'s mask is undefined. -/
theorem indexMask_of_le {d : Nat} (hd : 31 ≤ d) : indexMask d = none := by
  unfold indexMask shiftLeftOne
  rcases Nat.lt_or_ge 31 d with h | h
  · simp [show ¬d < 31 by omega, show d ≠ 31 by omega]
  · simp [show d = 31 by omega, subOne]

/-- Below depth 31, `local_mask` is `2 ^ d` and `local_mask - 1` is `2 ^ d - 1`. -/
theorem localMask_of_lt {d : Nat} (hd : d < 31) : localMask d = some (2 ^ d, 2 ^ d - 1) := by
  have h := two_pow_lt_size hd
  simp only [localMask, shiftLeftOne_of_lt hd, subOne_two_pow, Option.bind_eq_bind,
    Option.some_bind, Option.pure_def,
    toSizeT_of_lt h, toSizeT_of_lt (show 2 ^ d - 1 < 2 ^ 64 by omega)]

/-- `ExtendibleHashTable::Bucket`.  Every bucket is built with capacity `bucket_size_`, so the
capacity `size_` is read from the table. -/
structure Bucket (K V : Type) where
  /-- `list_`, in insertion order. -/
  list : List (K × V)
  /-- `depth_`, the local depth. -/
  depth : Nat

namespace Bucket

variable {K V : Type} [DecidableEq K]

/-- The loop of `Bucket::Find`: the value of the first entry with key `key`. -/
def findIn (key : K) : List (K × V) → Option V
  | [] => none
  | (k, v) :: rest => if k = key then some v else findIn key rest

/-- The loop of `Bucket::Remove`: the entries without the first one with key `key`, or `none`
when no entry has that key. -/
def removeFrom (key : K) : List (K × V) → Option (List (K × V))
  | [] => none
  | (k, v) :: rest => if k = key then some rest else (List.cons (k, v)) <$> removeFrom key rest

/-- The first loop of `Bucket::Insert`: the entries with the value of the first one with key
`key` overwritten, or `none` when no entry has that key. -/
def setValue (key : K) (value : V) : List (K × V) → Option (List (K × V))
  | [] => none
  | (k, v) :: rest =>
      if k = key then some ((k, value) :: rest) else (List.cons (k, v)) <$> setValue key value rest

/-- Modelled from the spec: `Bucket::IsFull` is declared in the header, which is not in src/.
A bucket is full when it holds `bucket_size` entries (§3). -/
def isFull (size : Nat) (b : Bucket K V) : Bool := decide (b.list.length = size)

/-- `Bucket::Find`. -/
def find (b : Bucket K V) (key : K) : Option V := findIn key b.list

/-- `Bucket::Remove`: whether an entry was erased, and the bucket after. -/
def remove (b : Bucket K V) (key : K) : Bool × Bucket K V :=
  match removeFrom key b.list with
  | some l => (true, { b with list := l })
  | none => (false, b)

/-- `Bucket::Insert`: overwrite the value of a present key, else append unless full. -/
def insert (size : Nat) (b : Bucket K V) (key : K) (value : V) : Bool × Bucket K V :=
  match setValue key value b.list with
  | some l => (true, { b with list := l })
  | none => if b.isFull size then (false, b) else (true, { b with list := b.list ++ [(key, value)] })

/-! ### The entry loops -/

@[simp] theorem findIn_nil (key : K) : findIn key ([] : List (K × V)) = none := rfl

theorem findIn_cons (key k : K) (v : V) (rest : List (K × V)) :
    findIn key ((k, v) :: rest) = if k = key then some v else findIn key rest := rfl

theorem findIn_eq_none_of_not_mem {key : K} :
    ∀ {l : List (K × V)}, key ∉ l.map Prod.fst → findIn key l = none
  | [], _ => rfl
  | (k, v) :: rest, h => by
      simp only [List.map_cons, List.mem_cons, not_or] at h
      rw [findIn_cons, if_neg (Ne.symm h.1), findIn_eq_none_of_not_mem h.2]

/-- Appending an absent key makes it map to the appended value and leaves the others. -/
theorem findIn_append_of_none {key : K} (value : V) (k : K) :
    ∀ {l : List (K × V)}, findIn key l = none →
      findIn k (l ++ [(key, value)]) = if k = key then some value else findIn k l
  | [], _ => by simp only [List.nil_append, findIn_cons, findIn_nil, eq_comm]
  | (k', v') :: rest, h => by
      rw [findIn_cons] at h
      split at h
      · cases h
      · rw [List.cons_append, findIn_cons, findIn_cons, findIn_append_of_none value k h]
        by_cases hk : k' = k
        · subst hk; simp [*]
        · simp [hk]

/-- A filter on keys that keeps `k` does not change what `k` maps to. -/
theorem findIn_filter (f : K → Bool) {k : K} (hk : f k = true) :
    ∀ l : List (K × V), findIn k (l.filter fun e => f e.1) = findIn k l
  | [] => rfl
  | (k', v') :: rest => by
      by_cases hf : f k' = true
      · simp only [List.filter_cons, hf, if_true, findIn_cons, findIn_filter f hk rest]
      · have hne : k' ≠ k := fun h => hf (h ▸ hk)
        simp [List.filter_cons, hf, findIn_cons, hne, findIn_filter f hk rest]

theorem setValue_eq_none {key : K} {value : V} :
    ∀ {l : List (K × V)}, setValue key value l = none ↔ findIn key l = none
  | [] => by simp [setValue]
  | (k, v) :: rest => by
      rw [findIn_cons, setValue]
      split
      · simp
      · simpa using (setValue_eq_none : setValue key value rest = none ↔ _)

theorem map_fst_setValue {key : K} {value : V} :
    ∀ {l l' : List (K × V)}, setValue key value l = some l' → l'.map Prod.fst = l.map Prod.fst
  | [], _, h => by cases h
  | (k, v) :: rest, l', h => by
      rw [setValue] at h
      split at h
      · cases h; rfl
      · obtain ⟨r, hr, rfl⟩ := Option.map_eq_some'.mp h
        simp [map_fst_setValue hr]

theorem findIn_setValue {key : K} {value : V} (k : K) :
    ∀ {l l' : List (K × V)}, setValue key value l = some l' →
      findIn k l' = if k = key then some value else findIn k l
  | [], _, h => by cases h
  | (k', v') :: rest, l', h => by
      rw [setValue] at h
      split at h
      · cases h
        rename_i hk'
        subst hk'
        by_cases hk : k' = k
        · subst hk; simp [findIn_cons]
        · simp [findIn_cons, hk, Ne.symm hk]
      · obtain ⟨r, hr, rfl⟩ := Option.map_eq_some'.mp h
        rw [findIn_cons, findIn_cons, findIn_setValue k hr]
        by_cases hk : k' = k
        · subst hk; simp [*]
        · simp [hk]

theorem removeFrom_eq_none {key : K} :
    ∀ {l : List (K × V)}, removeFrom key l = none ↔ findIn key l = none
  | [] => by simp [removeFrom]
  | (k, v) :: rest => by
      rw [findIn_cons, removeFrom]
      split
      · simp
      · simpa using (removeFrom_eq_none : removeFrom key rest = none ↔ _)

theorem removeFrom_sublist {key : K} :
    ∀ {l l' : List (K × V)}, removeFrom key l = some l' → l'.Sublist l
  | [], _, h => by cases h
  | (k, v) :: rest, l', h => by
      rw [removeFrom] at h
      split at h
      · cases h; exact List.sublist_cons_self _ _
      · obtain ⟨r, hr, rfl⟩ := Option.map_eq_some'.mp h
        exact (removeFrom_sublist hr).cons₂ _

/-- With distinct keys, removing `key` unbinds it and leaves the other keys. -/
theorem findIn_removeFrom {key : K} (k : K) :
    ∀ {l l' : List (K × V)}, (l.map Prod.fst).Nodup → removeFrom key l = some l' →
      findIn k l' = if k = key then none else findIn k l
  | [], _, _, h => by cases h
  | (k', v') :: rest, l', hnd, h => by
      rw [List.map_cons, List.nodup_cons] at hnd
      rw [removeFrom] at h
      split at h
      · cases h
        rename_i hk'
        subst hk'
        by_cases hk : k = k'
        · subst hk; simp [findIn_eq_none_of_not_mem hnd.1]
        · simp [findIn_cons, hk, Ne.symm hk]
      · obtain ⟨r, hr, rfl⟩ := Option.map_eq_some'.mp h
        rw [findIn_cons, findIn_cons, findIn_removeFrom k hnd.2 hr]
        by_cases hk : k' = k
        · subst hk; simp [*]
        · simp [hk]

theorem not_mem_of_findIn_eq_none {key : K} :
    ∀ {l : List (K × V)}, findIn key l = none → key ∉ l.map Prod.fst
  | [], _ => by simp
  | (k, v) :: rest, h => by
      rw [findIn_cons] at h
      split at h
      · cases h
      · simp only [List.map_cons, List.mem_cons, not_or]
        exact ⟨Ne.symm ‹_›, not_mem_of_findIn_eq_none h⟩

/-! ### Bucket operations -/

/-- `Bucket::Insert` of an absent key into a bucket with room appends the entry. -/
theorem insert_of_absent {size : Nat} {b : Bucket K V} {key : K} (value : V)
    (hfind : findIn key b.list = none) (hroom : b.list.length ≠ size) :
    b.insert size key value = (true, ⟨b.list ++ [(key, value)], b.depth⟩) := by
  simp [insert, setValue_eq_none.mpr hfind, isFull, hroom]

/-- `Bucket::Insert` of a present key overwrites its value and keeps the keys. -/
theorem insert_of_present {size : Nat} {b : Bucket K V} {key : K} (value : V)
    (hfind : findIn key b.list ≠ none) :
    (b.insert size key value).2.depth = b.depth ∧
      (b.insert size key value).2.list.map Prod.fst = b.list.map Prod.fst ∧
      ∀ k, findIn k (b.insert size key value).2.list =
        if k = key then some value else findIn k b.list := by
  obtain ⟨l, hl⟩ := Option.ne_none_iff_exists'.mp (mt setValue_eq_none.mp hfind)
  unfold insert
  rw [hl]
  exact ⟨rfl, map_fst_setValue hl, fun k => findIn_setValue k hl⟩

theorem remove_fst (b : Bucket K V) (key : K) : (b.remove key).1 = (findIn key b.list).isSome := by
  unfold remove
  split <;> rename_i h
  · have : findIn key b.list ≠ none := fun h' => by simp [removeFrom_eq_none.mpr h'] at h
    exact (Option.isSome_iff_ne_none.mpr this).symm
  · simp [removeFrom_eq_none.mp h]

theorem remove_snd (b : Bucket K V) (key : K) :
    (b.remove key).2.depth = b.depth ∧ (b.remove key).2.list.Sublist b.list := by
  unfold remove
  split <;> rename_i h
  · exact ⟨rfl, removeFrom_sublist h⟩
  · exact ⟨rfl, List.Sublist.refl _⟩

theorem findIn_remove_snd {b : Bucket K V} (hnd : (b.list.map Prod.fst).Nodup) (key k : K) :
    findIn k (b.remove key).2.list = if k = key then none else findIn k b.list := by
  unfold remove
  split <;> rename_i h
  · exact findIn_removeFrom k hnd h
  · have := removeFrom_eq_none.mp h
    split <;> simp_all

end Bucket

/-- `ExtendibleHashTable<K, V>`.  `num_buckets_` is left out: only `GetNumBuckets` reads it. -/
structure ExtendibleHashTable (K V : Type) where
  /-- `global_depth_`. -/
  globalDepth : Nat
  /-- `bucket_size_`. -/
  bucketSize : Nat
  /-- `dir_`: the identity of the bucket each slot points to. -/
  dir : List Nat
  /-- The bucket behind each identity. -/
  buckets : Nat → Bucket K V
  /-- The identity the next `make_shared<Bucket>` receives. -/
  nextBucket : Nat

namespace ExtendibleHashTable

variable {K V : Type} (hash : K → Nat)

/-- The constructor: global depth 0 and one empty bucket of depth 0 in the only slot. -/
def new (bucketSize : Nat) : ExtendibleHashTable K V where
  globalDepth := 0
  bucketSize := bucketSize
  dir := [0]
  buckets := fun _ => ⟨[], 0⟩
  nextBucket := 1

/-- `IndexOf`: the low `global_depth_` bits of the hash, with the mask `2 ^ global_depth_ - 1`
that `indexMask` gives below depth 31. -/
def indexOf (t : ExtendibleHashTable K V) (key : K) : Nat :=
  hash key &&& (2 ^ t.globalDepth - 1)

/-- `dir_[i]`, as the identity of the bucket. -/
def slot (t : ExtendibleHashTable K V) (i : Nat) : Nat := t.dir.getD i 0

/-- `*dir_[i]`. -/
def bucketAt (t : ExtendibleHashTable K V) (i : Nat) : Bucket K V := t.buckets (t.slot i)

/-- A write through a shared pointer: the bucket with identity `id` becomes `b`. -/
def setBucket (t : ExtendibleHashTable K V) (id : Nat) (b : Bucket K V) :
    ExtendibleHashTable K V :=
  { t with buckets := Function.update t.buckets id b }

/-- The doubling step of the split loop: `copy_n` of the directory onto its own end. -/
def double (t : ExtendibleHashTable K V) : ExtendibleHashTable K V :=
  { t with dir := t.dir ++ t.dir, globalDepth := t.globalDepth + 1 }

/-- The slot loop of a split.  It runs `i` from `hash(key) & (local_mask - 1)` up the directory in
steps of `local_mask`: those are the slots `i` with `i % local_mask` equal to that start, since
the start is below `local_mask`.  Each goes to `id1` when `i & local_mask` is set and to `id0`
otherwise. -/
def repoint (key : K) (localMask id0 id1 : Nat) (dir : List Nat) : List Nat :=
  dir.mapIdx fun i id =>
    if i % localMask = hash key &&& (localMask - 1) then (if i &&& localMask ≠ 0 then id1 else id0)
    else id

/-! ### Equations -/

theorem indexOf_eq (t : ExtendibleHashTable K V) (key : K) :
    t.indexOf hash key = hash key % 2 ^ t.globalDepth :=
  Nat.and_pow_two_sub_one_eq_mod _ _

theorem indexOf_lt (t : ExtendibleHashTable K V) (key : K) :
    t.indexOf hash key < 2 ^ t.globalDepth := by
  rw [indexOf_eq]; exact Nat.mod_lt _ (Nat.two_pow_pos _)

/-- Below depth 31, `indexOf` is what `IndexOf` computes with its `int` mask. -/
theorem indexMask_indexOf (t : ExtendibleHashTable K V) (key : K) (hd : t.globalDepth < 31) :
    (indexMask t.globalDepth).map (hash key &&& ·) = some (t.indexOf hash key) := by
  rw [indexMask_of_lt hd]; rfl

@[simp] theorem setBucket_globalDepth (t : ExtendibleHashTable K V) (id : Nat) (b : Bucket K V) :
    (t.setBucket id b).globalDepth = t.globalDepth := rfl

@[simp] theorem setBucket_bucketSize (t : ExtendibleHashTable K V) (id : Nat) (b : Bucket K V) :
    (t.setBucket id b).bucketSize = t.bucketSize := rfl

@[simp] theorem setBucket_nextBucket (t : ExtendibleHashTable K V) (id : Nat) (b : Bucket K V) :
    (t.setBucket id b).nextBucket = t.nextBucket := rfl

@[simp] theorem setBucket_slot (t : ExtendibleHashTable K V) (id : Nat) (b : Bucket K V)
    (i : Nat) : (t.setBucket id b).slot i = t.slot i := rfl

@[simp] theorem setBucket_indexOf (t : ExtendibleHashTable K V) (id : Nat) (b : Bucket K V)
    (key : K) : (t.setBucket id b).indexOf hash key = t.indexOf hash key := rfl

theorem setBucket_bucketAt (t : ExtendibleHashTable K V) (id : Nat) (b : Bucket K V) (i : Nat) :
    (t.setBucket id b).bucketAt i = if t.slot i = id then b else t.bucketAt i :=
  Function.update_apply t.buckets id b (t.slot i)

theorem bucketAt_eq_of_slot_eq {t : ExtendibleHashTable K V} {i j : Nat} (h : t.slot j = t.slot i) :
    t.bucketAt j = t.bucketAt i := by
  simp [bucketAt, h]

@[simp] theorem double_globalDepth (t : ExtendibleHashTable K V) :
    t.double.globalDepth = t.globalDepth + 1 := rfl

@[simp] theorem double_bucketSize (t : ExtendibleHashTable K V) :
    t.double.bucketSize = t.bucketSize := rfl

@[simp] theorem double_nextBucket (t : ExtendibleHashTable K V) :
    t.double.nextBucket = t.nextBucket := rfl

/-- After doubling, slot `j` aliases slot `j % 2 ^ global_depth_` of the old directory. -/
theorem double_slot {t : ExtendibleHashTable K V} (hlen : t.dir.length = 2 ^ t.globalDepth)
    {j : Nat} (hj : j < 2 ^ (t.globalDepth + 1)) : t.double.slot j = t.slot (j % 2 ^ t.globalDepth) := by
  simp only [slot, double]
  rw [Nat.pow_succ] at hj
  by_cases hlt : j < 2 ^ t.globalDepth
  · rw [List.getD_append _ _ _ _ (hlen ▸ hlt), Nat.mod_eq_of_lt hlt]
  · rw [List.getD_append_right _ _ _ _ (by omega), hlen, Nat.mod_eq_sub_mod (by omega),
      Nat.mod_eq_of_lt (by omega)]

theorem double_bucketAt {t : ExtendibleHashTable K V} (hlen : t.dir.length = 2 ^ t.globalDepth)
    {j : Nat} (hj : j < 2 ^ (t.globalDepth + 1)) :
    t.double.bucketAt j = t.bucketAt (j % 2 ^ t.globalDepth) := by
  simp only [bucketAt, double_slot hlen hj]; rfl

theorem repoint_getD (key : K) (localMask id0 id1 : Nat) {dir : List Nat} {j : Nat}
    (hj : j < dir.length) :
    (repoint hash key localMask id0 id1 dir).getD j 0 =
      if j % localMask = hash key &&& (localMask - 1) then (if j &&& localMask ≠ 0 then id1 else id0)
      else dir.getD j 0 := by
  unfold repoint
  rw [List.getD_eq_getElem _ _ (by simpa using hj), List.getElem_mapIdx, List.getD_eq_getElem _ _ hj]

section

variable [DecidableEq K]

/-- `Find`. -/
def find (t : ExtendibleHashTable K V) (key : K) : Option V :=
  (t.bucketAt (t.indexOf hash key)).find key

/-- `Remove`: whether the key was present, and the table after. -/
def remove (t : ExtendibleHashTable K V) (key : K) : Bool × ExtendibleHashTable K V :=
  let id := t.slot (t.indexOf hash key)
  let r := (t.buckets id).remove key
  (r.1, t.setBucket id r.2)

/-- The redistribution loop of a split: each entry goes, by `Bucket::Insert`, to the second
new bucket when its hash has the bit `localMask` set and to the first otherwise. -/
def redistribute (size localMask : Nat) :
    List (K × V) → Bucket K V → Bucket K V → Bucket K V × Bucket K V
  | [], b0, b1 => (b0, b1)
  | (k, v) :: rest, b0, b1 =>
      if hash k &&& localMask ≠ 0 then redistribute size localMask rest b0 (b1.insert size k v).2
      else redistribute size localMask rest (b0.insert size k v).2 b1

/-- The second half of one iteration of the split loop: make two buckets of depth
`localDepth + 1`, redistribute the entries of the bucket at slot `index` between them by the bit
`localDepth` of their hash, and repoint the slots of the old bucket.  `localMask` is
`2 ^ localDepth`, what `localMask` gives below depth 31. -/
def splitBucket (t : ExtendibleHashTable K V) (key : K) (index localDepth : Nat) :
    ExtendibleHashTable K V :=
  let localMask := 2 ^ localDepth
  let fresh : Bucket K V := ⟨[], localDepth + 1⟩
  let r := redistribute hash t.bucketSize localMask (t.bucketAt index).list fresh fresh
  { t with
    dir := repoint hash key localMask t.nextBucket (t.nextBucket + 1) t.dir
    buckets := Function.update (Function.update t.buckets t.nextBucket r.1) (t.nextBucket + 1) r.2
    nextBucket := t.nextBucket + 2 }

/-- One iteration of the split loop of `Insert`, for the key `key` at slot `index`: read the local
depth, double the directory when it equals the global depth, then split the bucket. -/
def split (t : ExtendibleHashTable K V) (key : K) (index : Nat) : ExtendibleHashTable K V :=
  let localDepth := (t.bucketAt index).depth
  (if localDepth = t.globalDepth then t.double else t).splitBucket hash key index localDepth

/-- The split loop `while (dir_[index]->IsFull())` of `Insert`, allowed `fuel` iterations;
`none` when the bucket of `key` is still full after them. -/
def splitLoop (key : K) : Nat → ExtendibleHashTable K V → Option (ExtendibleHashTable K V)
  | fuel, t =>
    if (t.bucketAt (t.indexOf hash key)).isFull t.bucketSize then
      match fuel with
      | 0 => none
      | fuel + 1 => splitLoop key fuel (t.split hash key (t.indexOf hash key))
    else some t

/-- The last statement of `Insert` and its early-return branch: `Bucket::Insert` into the bucket
of `key`. -/
def insertAtIndex (t : ExtendibleHashTable K V) (key : K) (value : V) : ExtendibleHashTable K V :=
  let id := t.slot (t.indexOf hash key)
  t.setBucket id ((t.buckets id).insert t.bucketSize key value).2

/-- `Insert`, with at most `fuel` iterations of the split loop: overwrite in place when the key
is present, else split until the bucket of `key` has room and insert there. -/
def insert (fuel : Nat) (t : ExtendibleHashTable K V) (key : K) (value : V) :
    Option (ExtendibleHashTable K V) :=
  if ((t.bucketAt (t.indexOf hash key)).find key).isSome then some (t.insertAtIndex hash key value)
  else (t.splitLoop hash key fuel).map fun t => t.insertAtIndex hash key value

theorem splitBucket_slot (t : ExtendibleHashTable K V) (key : K) (index localDepth : Nat) {j : Nat}
    (hj : j < t.dir.length) :
    (t.splitBucket hash key index localDepth).slot j =
      if j % 2 ^ localDepth = hash key % 2 ^ localDepth then
        (if j.testBit localDepth then t.nextBucket + 1 else t.nextBucket)
      else t.slot j := by
  simp only [slot, splitBucket]
  rw [repoint_getD hash key _ _ _ hj, Nat.and_pow_two_sub_one_eq_mod]
  simp only [ne_eq, and_two_pow_ne_zero]

@[simp] theorem splitBucket_globalDepth (t : ExtendibleHashTable K V) (key : K)
    (index localDepth : Nat) : (t.splitBucket hash key index localDepth).globalDepth = t.globalDepth :=
  rfl

@[simp] theorem splitBucket_bucketSize (t : ExtendibleHashTable K V) (key : K)
    (index localDepth : Nat) : (t.splitBucket hash key index localDepth).bucketSize = t.bucketSize :=
  rfl

@[simp] theorem splitBucket_nextBucket (t : ExtendibleHashTable K V) (key : K)
    (index localDepth : Nat) :
    (t.splitBucket hash key index localDepth).nextBucket = t.nextBucket + 2 := rfl

theorem splitBucket_dir_length (t : ExtendibleHashTable K V) (key : K) (index localDepth : Nat) :
    (t.splitBucket hash key index localDepth).dir.length = t.dir.length := by
  simp [splitBucket, repoint]

theorem globalDepth_le_split (t : ExtendibleHashTable K V) (key : K) (index : Nat) :
    t.globalDepth ≤ (t.split hash key index).globalDepth := by
  simp only [split, splitBucket_globalDepth]
  split_ifs <;> simp

/-- The split loop never lowers the global depth: each `IndexOf` it evaluates is at a depth no
larger than the one it ends at. -/
theorem globalDepth_le_splitLoop (key : K) :
    ∀ {fuel : Nat} {t t' : ExtendibleHashTable K V}, t.splitLoop hash key fuel = some t' →
      t.globalDepth ≤ t'.globalDepth
  | fuel, t, t', h => by
    unfold splitLoop at h
    split_ifs at h
    · cases fuel with
      | zero => cases h
      | succ fuel => exact (globalDepth_le_split hash t key _).trans (globalDepth_le_splitLoop key h)
    · cases h; exact le_rfl

theorem globalDepth_le_insert {fuel : Nat} {t t' : ExtendibleHashTable K V} {key : K} {value : V}
    (h : t.insert hash fuel key value = some t') : t.globalDepth ≤ t'.globalDepth := by
  unfold insert at h
  split_ifs at h
  · cases h; exact le_rfl
  · obtain ⟨t₁, hs, rfl⟩ := Option.map_eq_some'.mp h
    exact (globalDepth_le_splitLoop hash key hs :)

/-- With distinct keys that neither new bucket holds, and room for all of them, the
redistribution appends the entries whose bit is clear to the first bucket and the others to
the second. -/
theorem redistribute_eq (size mask : Nat) :
    ∀ (l : List (K × V)) (b0 b1 : Bucket K V), (l.map Prod.fst).Nodup →
      (∀ e ∈ l, Bucket.findIn e.1 b0.list = none ∧ Bucket.findIn e.1 b1.list = none) →
      b0.list.length + l.length ≤ size → b1.list.length + l.length ≤ size →
      redistribute hash size mask l b0 b1 =
        (⟨b0.list ++ l.filter (fun e => !decide (hash e.1 &&& mask ≠ 0)), b0.depth⟩,
         ⟨b1.list ++ l.filter (fun e => decide (hash e.1 &&& mask ≠ 0)), b1.depth⟩)
  | [], b0, b1, _, _, _, _ => by simp [redistribute]
  | (k, v) :: rest, b0, b1, hnd, hfresh, h0, h1 => by
      rw [List.map_cons, List.nodup_cons] at hnd
      have hk := hfresh (k, v) (List.mem_cons_self _ _)
      have hrest : ∀ e ∈ rest, e.1 ≠ k := fun e he hek => by
        have := List.mem_map_of_mem Prod.fst he
        rw [hek] at this
        exact hnd.1 this
      simp only [List.length_cons] at h0 h1
      by_cases hbit : hash k &&& mask ≠ 0
      · rw [redistribute, if_pos hbit, Bucket.insert_of_absent v hk.2 (by omega),
          redistribute_eq size mask rest _ _ hnd.2 ?_ (by omega) (by simp; omega)]
        · simp [List.filter_cons, hbit]
        · intro e he
          refine ⟨(hfresh e (List.mem_cons_of_mem _ he)).1, ?_⟩
          rw [Bucket.findIn_append_of_none v e.1 hk.2, if_neg (hrest e he)]
          exact (hfresh e (List.mem_cons_of_mem _ he)).2
      · rw [redistribute, if_neg hbit, Bucket.insert_of_absent v hk.1 (by omega),
          redistribute_eq size mask rest _ _ hnd.2 ?_ (by simp; omega) (by omega)]
        · simp only [ne_eq, Decidable.not_not] at hbit
          simp [List.filter_cons, hbit]
        · intro e he
          refine ⟨?_, (hfresh e (List.mem_cons_of_mem _ he)).2⟩
          rw [Bucket.findIn_append_of_none v e.1 hk.1, if_neg (hrest e he)]
          exact (hfresh e (List.mem_cons_of_mem _ he)).1

end

end ExtendibleHashTable

end Bustub
