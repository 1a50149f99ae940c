import Bustub.Container.Directory
import Mathlib.Algebra.Group.Int

/-!
# How long the split loop of `Insert` runs

One iteration of the split loop leaves at the key's slot a bucket one deeper, holding the entries
of the old one that agree with the key on the bit the split reads (`Inv.split_bucketAt_indexOf`),
and doubles the directory when that bucket was as deep as the directory (`split_globalDepth`).

*Termination.*  The loop stops once it has split at a bit where some entry of the key's bucket
differs from the key: that entry leaves the key's bucket, which then has room.  So if an entry
differs from the key below bit `depth + n + 1`, `n + 1` iterations are enough
(`Inv.splitLoop_isSome`), and with `bucket_size_ ≥ 1` and a hash that tells keys apart the loop
of every `Insert` stops (`Inv.insert_isSome`).

*Depth.*  With `bucket_size_` 1 and the key's bucket as deep as the directory, every low bit the
key shares with the bucket's entry doubles the directory (`Inv.splitLoop_single`).  After
`Insert(0)` and `Insert(1 << 30)` the loop runs 31 times and leaves `global_depth_` at 31, where
`IndexOf`'s `(1 << global_depth_) - 1` is past `INT_MAX` (`insert_pushes_globalDepth_to_31`).

*Runs.*  Over the runs that stay below depth 31 the directory invariant holds at every step
(`directoryInvariant_of_reachable`).  The second `Insert` above is a call that returns from a
reachable table while its last `IndexOf` is undefined (`reachable_insert_past_indexMask`).
-/

namespace Bustub.ExtendibleHashTable

variable {K V : Type} [DecidableEq K] {hash : K → Nat} {t : ExtendibleHashTable K V}

omit [DecidableEq K] in
theorem indexOf_mod (key : K) {d : Nat} (hd : d ≤ t.globalDepth) :
    t.indexOf hash key % 2 ^ d = hash key % 2 ^ d := by
  rw [indexOf_eq, mod_mod_two_pow hd]

theorem split_globalDepth (key : K) :
    (t.split hash key (t.indexOf hash key)).globalDepth =
      if (t.bucketAt (t.indexOf hash key)).depth = t.globalDepth then t.globalDepth + 1
      else t.globalDepth := by
  simp only [ExtendibleHashTable.split, splitBucket_globalDepth]
  split_ifs <;> rfl

@[simp] theorem split_bucketSize (key : K) (index : Nat) :
    (t.split hash key index).bucketSize = t.bucketSize := by
  simp only [ExtendibleHashTable.split, splitBucket_bucketSize]
  split_ifs <;> rfl

/-- A split at depth `d` below the global depth, seen from the slot of `key`. -/
theorem Inv.splitBucket_bucketAt_key (h : Inv hash t) {key : K} {i0 d : Nat}
    (hi0 : i0 < 2 ^ t.globalDepth) (hd : d < t.globalDepth) (hkey : hash key % 2 ^ d = i0 % 2 ^ d) :
    (t.splitBucket hash key i0 d).bucketAt (hash key % 2 ^ t.globalDepth) =
      ⟨(t.bucketAt i0).list.filter (fun e => (hash e.1).testBit d == (hash key).testBit d),
        d + 1⟩ := by
  rw [splitBucket_bucketAt h hi0 hkey (Nat.mod_lt _ (Nat.two_pow_pos _)),
    if_pos (by rw [mod_mod_two_pow hd.le, hkey]), Nat.testBit_mod_two_pow]
  simp [hd]

/-- After one iteration, the key's slot holds the entries that agree with the key on bit `d`, in
a bucket of depth `d + 1`, where `d` is the depth of the bucket split. -/
theorem Inv.split_bucketAt_indexOf (h : Inv hash t) (key : K) :
    (t.split hash key (t.indexOf hash key)).bucketAt
        ((t.split hash key (t.indexOf hash key)).indexOf hash key) =
      ⟨(t.bucketAt (t.indexOf hash key)).list.filter (fun e =>
          (hash e.1).testBit (t.bucketAt (t.indexOf hash key)).depth ==
            (hash key).testBit (t.bucketAt (t.indexOf hash key)).depth),
        (t.bucketAt (t.indexOf hash key)).depth + 1⟩ := by
  have hi := indexOf_lt hash t key
  have hle := h.depth_le _ hi
  have hkey := (@indexOf_mod K V hash t key _ hle).symm
  simp only [ExtendibleHashTable.split]
  split_ifs with hd
  · have hi' : t.indexOf hash key < 2 ^ t.double.globalDepth :=
      hi.trans (Nat.pow_lt_pow_right Nat.one_lt_two (Nat.lt_succ_self _))
    have hb : t.double.bucketAt (t.indexOf hash key) = t.bucketAt (t.indexOf hash key) := by
      rw [double_bucketAt h.dir_length hi', Nat.mod_eq_of_lt hi]
    rw [indexOf_eq hash (ExtendibleHashTable.splitBucket hash _ key _ _) key, splitBucket_globalDepth,
      h.double.splitBucket_bucketAt_key hi' (by simp [hd]) hkey, hb]
  · rw [indexOf_eq hash (ExtendibleHashTable.splitBucket hash _ key _ _) key, splitBucket_globalDepth,
      h.splitBucket_bucketAt_key hi (lt_of_le_of_ne hle hd) hkey]

omit [DecidableEq K] in
/-- A key's bucket with room ends the loop at once. -/
theorem splitLoop_of_not_full [DecidableEq K] {key : K} (n : Nat)
    (hroom : (t.bucketAt (t.indexOf hash key)).isFull t.bucketSize = false) :
    t.splitLoop hash key n = some t := by
  unfold ExtendibleHashTable.splitLoop
  rw [if_neg (by simp [hroom])]

/-- The split loop stops once it has split at the first bit where an entry of the key's bucket
differs from the key: if one differs below bit `depth + n + 1`, `n + 1` iterations are enough. -/
theorem Inv.splitLoop_isSome (key : K) :
    ∀ (n : Nat) {t : ExtendibleHashTable K V}, Inv hash t →
      (∃ e ∈ (t.bucketAt (t.indexOf hash key)).list,
        hash e.1 % 2 ^ ((t.bucketAt (t.indexOf hash key)).depth + n + 1) ≠
          hash key % 2 ^ ((t.bucketAt (t.indexOf hash key)).depth + n + 1)) →
      (t.splitLoop hash key (n + 1)).isSome
  | n, t, h, ⟨e, he, hdiff⟩ => by
    have hi := indexOf_lt hash t key
    have hagree : hash e.1 % 2 ^ (t.bucketAt (t.indexOf hash key)).depth =
        hash key % 2 ^ (t.bucketAt (t.indexOf hash key)).depth := by
      rw [h.hash_mod _ hi e he, indexOf_mod key (h.depth_le _ hi)]
    unfold ExtendibleHashTable.splitLoop
    split_ifs with hfull
    · dsimp only
      have hsplit := h.split_bucketAt_indexOf key
      by_cases hbit : (hash e.1).testBit (t.bucketAt (t.indexOf hash key)).depth =
          (hash key).testBit (t.bucketAt (t.indexOf hash key)).depth
      · cases n with
        | zero => exact absurd (mod_two_pow_succ_eq_iff.mpr ⟨hagree, hbit⟩) hdiff
        | succ m =>
          refine h.split key |>.splitLoop_isSome key m ⟨e, ?_, ?_⟩
          · rw [hsplit]; exact List.mem_filter.mpr ⟨he, by simp [hbit]⟩
          · rwa [hsplit, show (t.bucketAt (t.indexOf hash key)).depth + 1 + m + 1 =
              (t.bucketAt (t.indexOf hash key)).depth + (m + 1) + 1 by omega]
      · rw [splitLoop_of_not_full n]
        · rfl
        rw [hsplit, split_bucketSize]
        simp only [Bucket.isFull, decide_eq_true_eq] at hfull
        simp only [Bucket.isFull, decide_eq_false_iff_not, ← hfull]
        exact Nat.ne_of_lt (List.length_filter_lt_length_iff_exists.mpr ⟨e, he, by simpa using hbit⟩)
    · rfl

/-- With `bucket_size_ ≥ 1` and a hash that tells keys apart, the split loop of `Insert` stops
on every table the calls can reach. -/
theorem Inv.insert_isSome (h : Inv hash t) (hsize : 1 ≤ t.bucketSize)
    (hinj : Function.Injective hash) (key : K) (value : V) :
    ∃ fuel, (t.insert hash fuel key value).isSome := by
  unfold ExtendibleHashTable.insert
  by_cases hfound : ((t.bucketAt (t.indexOf hash key)).find key).isSome
  · exact ⟨0, by simp [hfound]⟩
  · simp only [hfound, Bool.false_eq_true, if_false, Option.isSome_map']
    by_cases hfull : (t.bucketAt (t.indexOf hash key)).isFull t.bucketSize
    · obtain ⟨e, he⟩ : ∃ e, e ∈ (t.bucketAt (t.indexOf hash key)).list := by
        simp only [Bucket.isFull, decide_eq_true_eq] at hfull
        exact List.exists_mem_of_length_pos (by omega)
      have hnone : Bucket.findIn key (t.bucketAt (t.indexOf hash key)).list = none := by
        simpa [Bucket.find] using hfound
      have hne : hash e.1 ≠ hash key := fun heq => Bucket.not_mem_of_findIn_eq_none hnone (by
        have hmem := List.mem_map_of_mem Prod.fst he
        rwa [hinj heq] at hmem)
      have hpow : ∀ x ≤ hash e.1 + hash key,
          x < 2 ^ ((t.bucketAt (t.indexOf hash key)).depth + (hash e.1 + hash key) + 1) :=
        fun x hx => (Nat.lt_two_pow x).trans_le (Nat.pow_le_pow_right Nat.two_pos (by omega))
      refine ⟨hash e.1 + hash key + 1, h.splitLoop_isSome key _ ⟨e, he, ?_⟩⟩
      rwa [Nat.mod_eq_of_lt (hpow _ (by omega)), Nat.mod_eq_of_lt (hpow _ (by omega))]
    · exact ⟨0, by rw [splitLoop_of_not_full 0 (by simpa using hfull)]; rfl⟩

/-- With `bucket_size_` 1, the key's bucket holding one entry and as deep as the directory, and
that entry sharing the bits below `global_depth_ + n` with the key but not bit
`global_depth_ + n`, the loop runs exactly `n + 1` times and doubles the directory each time. -/
theorem Inv.splitLoop_single (key : K) :
    ∀ (n : Nat) {t : ExtendibleHashTable K V}, Inv hash t → t.bucketSize = 1 → ∀ {a : K × V},
      (t.bucketAt (t.indexOf hash key)).list = [a] →
      (t.bucketAt (t.indexOf hash key)).depth = t.globalDepth →
      hash a.1 % 2 ^ (t.globalDepth + n) = hash key % 2 ^ (t.globalDepth + n) →
      (hash a.1).testBit (t.globalDepth + n) ≠ (hash key).testBit (t.globalDepth + n) →
      t.splitLoop hash key n = none ∧
        ∃ t', t.splitLoop hash key (n + 1) = some t' ∧ t'.globalDepth = t.globalDepth + n + 1
  | n, t, h, hsize, a, hlist, hdepth, hshared, hbit => by
    have hfull : (t.bucketAt (t.indexOf hash key)).isFull t.bucketSize = true := by
      simp [Bucket.isFull, hlist, hsize]
    have hglobal : (t.split hash key (t.indexOf hash key)).globalDepth = t.globalDepth + 1 := by
      rw [split_globalDepth, if_pos hdepth]
    have hsplit := h.split_bucketAt_indexOf key
    rw [hlist, hdepth] at hsplit
    cases n with
    | zero =>
      have hroom : ((t.split hash key (t.indexOf hash key)).bucketAt
          ((t.split hash key (t.indexOf hash key)).indexOf hash key)).isFull
            (t.split hash key (t.indexOf hash key)).bucketSize = false := by
        rw [Nat.add_zero] at hbit
        rw [hsplit]
        simp [Bucket.isFull, hsize, List.filter_cons, hbit]
      refine ⟨by unfold ExtendibleHashTable.splitLoop; rw [if_pos hfull],
        t.split hash key (t.indexOf hash key), ?_, by simpa using hglobal⟩
      unfold ExtendibleHashTable.splitLoop
      rw [if_pos hfull]
      exact splitLoop_of_not_full 0 hroom
    | succ m =>
      have hkeep : (hash a.1).testBit t.globalDepth = (hash key).testBit t.globalDepth :=
        mod_two_pow_eq_iff.mp hshared _ (by omega)
      have hshift : t.globalDepth + 1 + m = t.globalDepth + (m + 1) := by omega
      obtain ⟨hnone, t', hsome, hdepth'⟩ := (h.split key).splitLoop_single key m
        (by rw [split_bucketSize, hsize]) (a := a) (by rw [hsplit]; simp [hkeep])
        (by rw [hsplit, hglobal])
        (by rwa [hglobal, hshift]) (by rwa [hglobal, hshift])
      unfold ExtendibleHashTable.splitLoop
      rw [if_pos hfull, if_pos hfull]
      exact ⟨hnone, t', hsome, by rw [hdepth', hglobal]; omega⟩

/-- `std::hash<int>`: the key converted to `size_t`. -/
def hashInt (key : Int) : Nat := (key % 2 ^ 64).toNat

/-- With `bucket_size` 1, after `Insert(0)` the split loop of `Insert(1 << 30)` does not stop
within 30 iterations, and the 31st leaves `global_depth_` at 31. -/
theorem splitLoop_after_insert_zero :
    ((new 1 : ExtendibleHashTable Int Nat).insertAtIndex hashInt 0 0).splitLoop hashInt (2 ^ 30) 30
        = none ∧
      ∃ t', ((new 1 : ExtendibleHashTable Int Nat).insertAtIndex hashInt 0 0).splitLoop hashInt
        (2 ^ 30) 31 = some t' ∧ t'.globalDepth = 31 := by
  have h₁ : Inv hashInt ((new 1 : ExtendibleHashTable Int Nat).insertAtIndex hashInt 0 0) :=
    Inv.of_reachable (show Reachable hashInt 1 _ from .single (.insert 0 0 0 rfl rfl))
  exact h₁.splitLoop_single (2 ^ 30) 30 rfl (a := (0, 0)) (by decide) (by decide) (by decide)
    (by decide)

theorem insert_after_insert_zero {t' : ExtendibleHashTable Int Nat}
    (h : ((new 1 : ExtendibleHashTable Int Nat).insertAtIndex hashInt 0 0).splitLoop hashInt
      (2 ^ 30) 31 = some t') :
    ((new 1 : ExtendibleHashTable Int Nat).insertAtIndex hashInt 0 0).insert hashInt 31 (2 ^ 30) 1 =
      some (t'.insertAtIndex hashInt (2 ^ 30) 1) := by
  simp only [ExtendibleHashTable.insert, h]
  rfl

/-- With `bucket_size` 1, `Insert(0)` and then `Insert(1 << 30)`: the second split loop does not
stop within 30 iterations, and the 31st leaves `global_depth_` at 31. -/
theorem insert_pushes_globalDepth_to_31 :
    ∃ t₁ t₂ : ExtendibleHashTable Int Nat,
      (new 1).insert hashInt 0 0 0 = some t₁ ∧ t₁.splitLoop hashInt (2 ^ 30) 30 = none ∧
        t₁.insert hashInt 31 (2 ^ 30) 1 = some t₂ ∧ t₂.globalDepth = 31 :=
  have ⟨hnone, _, hsome, hdepth⟩ := splitLoop_after_insert_zero
  ⟨_, _, rfl, hnone, insert_after_insert_zero hsome, hdepth⟩

/-! ## The directory invariant over runs -/

/-- After any sequence of `Insert` and `Remove` calls that return below depth 31, from the
constructor with any `bucket_size`, the directory invariant holds. -/
theorem directoryInvariant_of_reachable {bucketSize : Nat} {t : ExtendibleHashTable K V}
    (h : Reachable hash bucketSize t) : DirectoryInvariant hash t :=
  (Inv.of_reachable h).toDirectoryInvariant

/-- The spec's first scenario, `bucket_size = 2` and the identity hash: after keys 1 and 2 the
only bucket is full, and key 3 doubles the directory and splits it. -/
theorem directoryInvariant_three_keys :
    let t := ((((new 2 : ExtendibleHashTable Nat Nat).insertAtIndex id 1 10).insertAtIndex id 2 20).split
      id 3 0).insertAtIndex id 3 30
    Reachable id 2 t ∧ DirectoryInvariant id t :=
  have hr : Reachable id 2 ((((new 2 : ExtendibleHashTable Nat Nat).insertAtIndex id 1 10).insertAtIndex
      id 2 20).split id 3 0 |>.insertAtIndex id 3 30) :=
    .tail (.tail (.single (.insert 0 1 10 rfl rfl)) (.insert 0 2 20 rfl rfl)) (.insert 1 3 30 rfl rfl)
  ⟨hr, directoryInvariant_of_reachable hr⟩

/-- The second call of that run returns, though the `IndexOf(key)` after its last split is at global
depth 31, where the mask is undefined. -/
theorem reachable_insert_past_indexMask :
    ∃ t₁ t' t₂ : ExtendibleHashTable Int Nat, Reachable hashInt 1 t₁ ∧
      t₁.splitLoop hashInt (2 ^ 30) 31 = some t' ∧ indexMask t'.globalDepth = none ∧
        t₁.insert hashInt 31 (2 ^ 30) 1 = some t₂ :=
  have ⟨_, t', hsome, hdepth⟩ := splitLoop_after_insert_zero
  ⟨_, t', _, .single (.insert 0 0 0 rfl rfl), hsome, indexMask_of_le hdepth.ge,
    insert_after_insert_zero hsome⟩

end Bustub.ExtendibleHashTable
