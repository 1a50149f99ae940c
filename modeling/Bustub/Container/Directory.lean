import Bustub.Container.ExtendibleHashTable

/-!
# The directory invariant

`DirectoryInvariant` is what the split loop of `Insert` relies on: the directory has
`2 ^ global_depth_` slots; the bucket behind slot `i` has depth `d ≤ global_depth_`; the slots
that share it are exactly those congruent to `i` modulo `2 ^ d`; each of its entries hashes to
`i` modulo `2 ^ d`; it holds at most `bucket_size_` entries, with distinct keys.  `Inv` adds
that every slot names an identity already allocated, which makes the two buckets of a split
fresh.

Every call that changes the table keeps `Inv`: `Remove` and an in-place `Bucket::Insert` only
rewrite one bucket (`Inv.setBucket`); a doubling copies the directory onto itself
(`Inv.double`); a split repoints exactly the slots of the old bucket, because those are the
slots congruent to the key's hash modulo the old local mask (`Inv.splitBucket`).  Hence
`Inv.of_reachable`: the invariant holds after every sequence of `Insert` and `Remove` calls that
return.

*The `int` masks.*  A run is taken below depth 31, where the source's masks are defined: an
`Insert` counts when `IndexOf`'s mask is defined at the depth it ends at.  The global depth never
decreases (`globalDepth_le_insert`), and each split reads a local depth below the global depth it
leaves (`Inv.localDepth_lt_split`), so every `IndexOf` and every `local_mask` of the run is at a
depth below 31, where they are the model's (`indexMask_indexOf`, `localMask_of_lt`).
-/

namespace Bustub.ExtendibleHashTable

variable {K V : Type} (hash : K → Nat)

/-- The directory invariant of an extendible hash table. -/
structure DirectoryInvariant (t : ExtendibleHashTable K V) : Prop where
  /-- `dir_` has `2 ^ global_depth_` slots. -/
  dir_length : t.dir.length = 2 ^ t.globalDepth
  /-- Local depths are at most the global depth. -/
  depth_le : ∀ i < 2 ^ t.globalDepth, (t.bucketAt i).depth ≤ t.globalDepth
  /-- The slots pointing to the bucket of slot `i` are those congruent to `i` modulo
  `2 ^ depth`. -/
  slot_eq_iff : ∀ i < 2 ^ t.globalDepth, ∀ j < 2 ^ t.globalDepth,
    t.slot j = t.slot i ↔ j % 2 ^ (t.bucketAt i).depth = i % 2 ^ (t.bucketAt i).depth
  /-- Every entry of the bucket of slot `i` hashes to `i` modulo `2 ^ depth`. -/
  hash_mod : ∀ i < 2 ^ t.globalDepth, ∀ e ∈ (t.bucketAt i).list,
    hash e.1 % 2 ^ (t.bucketAt i).depth = i % 2 ^ (t.bucketAt i).depth
  /-- No bucket holds more than `bucket_size_` entries. -/
  length_le : ∀ i < 2 ^ t.globalDepth, (t.bucketAt i).list.length ≤ t.bucketSize
  /-- The keys of a bucket are distinct. -/
  keys_nodup : ∀ i < 2 ^ t.globalDepth, ((t.bucketAt i).list.map Prod.fst).Nodup

/-- The directory invariant, and every slot names an allocated identity. -/
structure Inv (t : ExtendibleHashTable K V) extends DirectoryInvariant hash t : Prop where
  /-- Slots name identities below `nextBucket`. -/
  slot_lt : ∀ i < 2 ^ t.globalDepth, t.slot i < t.nextBucket

section

variable [DecidableEq K]

/-- One call that changes the table: an `Insert` that returns with `IndexOf`'s mask defined at
the depth it ends at, or a `Remove`. -/
inductive Step : ExtendibleHashTable K V → ExtendibleHashTable K V → Prop
  | insert {t t' : ExtendibleHashTable K V} (fuel : Nat) (key : K) (value : V) :
      t.insert hash fuel key value = some t' → (indexMask t'.globalDepth).isSome → Step t t'
  | remove (t : ExtendibleHashTable K V) (key : K) : Step t (t.remove hash key).2

/-- The tables some sequence of returning `Insert` and `Remove` calls makes from the
constructor's. -/
def Reachable (bucketSize : Nat) (t : ExtendibleHashTable K V) : Prop :=
  Relation.ReflTransGen (Step hash) (new bucketSize) t

end

variable {hash}

theorem inv_new (bucketSize : Nat) : Inv hash (new bucketSize : ExtendibleHashTable K V) where
  dir_length := rfl
  depth_le := by intro i _; simp [bucketAt, new]
  slot_eq_iff := by
    intro i hi j hj
    simp only [new, pow_zero, Nat.lt_one_iff] at hi hj
    simp [hi, hj]
  hash_mod := by intro i _ e he; simp [bucketAt, new] at he
  length_le := by intro i _; simp [bucketAt, new]
  keys_nodup := by intro i _; simp [bucketAt, new]
  slot_lt := by
    intro i hi
    simp only [new, pow_zero, Nat.lt_one_iff] at hi
    simp [hi, slot, new]

/-! ## Rewriting one bucket -/

/-- Replacing the bucket of slot `i` by one of the same depth, within capacity, with distinct
keys that hash to `i`, keeps the invariant. -/
theorem Inv.setBucket {t : ExtendibleHashTable K V} (h : Inv hash t) {i : Nat}
    (hi : i < 2 ^ t.globalDepth) {b : Bucket K V} (hdepth : b.depth = (t.bucketAt i).depth)
    (hlen : b.list.length ≤ t.bucketSize) (hnd : (b.list.map Prod.fst).Nodup)
    (hhash : ∀ e ∈ b.list, hash e.1 % 2 ^ b.depth = i % 2 ^ b.depth) :
    Inv hash (t.setBucket (t.slot i) b) where
  dir_length := h.dir_length
  depth_le j hj := by
    rw [setBucket_bucketAt]
    split_ifs
    · exact hdepth ▸ h.depth_le i hi
    · exact h.depth_le j hj
  slot_eq_iff j hj j' hj' := by
    simp only [setBucket_slot, setBucket_bucketAt]
    split_ifs with hs
    · rw [hdepth, ← bucketAt_eq_of_slot_eq hs]; exact h.slot_eq_iff j hj j' hj'
    · exact h.slot_eq_iff j hj j' hj'
  hash_mod j hj e he := by
    rw [setBucket_bucketAt] at he ⊢
    split_ifs at he ⊢ with hs
    · rw [hhash e he, hdepth, (h.slot_eq_iff i hi j hj).mp hs]
    · exact h.hash_mod j hj e he
  length_le j hj := by
    rw [setBucket_bucketAt]
    split_ifs
    · exact hlen
    · exact h.length_le j hj
  keys_nodup j hj := by
    rw [setBucket_bucketAt]
    split_ifs
    · exact hnd
    · exact h.keys_nodup j hj
  slot_lt := h.slot_lt

/-- A bucket of the same depth whose keys are a sublist of the old ones keeps the invariant. -/
theorem Inv.setBucket_of_keys {t : ExtendibleHashTable K V} (h : Inv hash t) {i : Nat}
    (hi : i < 2 ^ t.globalDepth) {b : Bucket K V} (hdepth : b.depth = (t.bucketAt i).depth)
    (hkeys : (b.list.map Prod.fst).Sublist ((t.bucketAt i).list.map Prod.fst)) :
    Inv hash (t.setBucket (t.slot i) b) := by
  refine h.setBucket hi hdepth ?_ (hkeys.nodup (h.keys_nodup i hi)) ?_
  · simpa using hkeys.length_le.trans (le_of_eq_of_le (List.length_map _ _) (h.length_le i hi))
  · intro e he
    obtain ⟨e', he', hfst⟩ := List.mem_map.mp (hkeys.subset (List.mem_map_of_mem Prod.fst he))
    rw [← hfst, hdepth]
    exact h.hash_mod i hi e' he'

/-! ## Doubling -/

theorem Inv.double {t : ExtendibleHashTable K V} (h : Inv hash t) : Inv hash t.double := by
  have hlen := h.dir_length
  have hj0 : ∀ j, j % 2 ^ t.globalDepth < 2 ^ t.globalDepth := fun j => Nat.mod_lt _ (Nat.two_pow_pos _)
  refine ⟨⟨?_, ?_, ?_, ?_, ?_, ?_⟩, ?_⟩ <;> simp only [double_globalDepth]
  · show (t.dir ++ t.dir).length = _
    simp [hlen, Nat.pow_succ, Nat.mul_two]
  · intro j hj
    rw [double_bucketAt hlen hj]
    exact (h.depth_le _ (hj0 j)).trans (Nat.le_succ _)
  · intro j hj j' hj'
    rw [double_slot hlen hj, double_slot hlen hj', double_bucketAt hlen hj,
      h.slot_eq_iff _ (hj0 j) _ (hj0 j'), mod_mod_two_pow (h.depth_le _ (hj0 j)),
      mod_mod_two_pow (h.depth_le _ (hj0 j))]
  · intro j hj e he
    rw [double_bucketAt hlen hj] at he ⊢
    rw [h.hash_mod _ (hj0 j) e he, mod_mod_two_pow (h.depth_le _ (hj0 j))]
  · intro j hj
    rw [double_bucketAt hlen hj]; exact h.length_le _ (hj0 j)
  · intro j hj
    rw [double_bucketAt hlen hj]; exact h.keys_nodup _ (hj0 j)
  · intro j hj
    rw [double_slot hlen hj]; exact h.slot_lt _ (hj0 j)

section

variable [DecidableEq K]

/-! ## Splitting a bucket -/

/-- A split of the bucket at slot `i0`, of depth `ld` below the global depth, for a key that
hashes to `i0` modulo `2 ^ ld`: the slots congruent to `i0` modulo `2 ^ ld` get the two new
buckets by their bit `ld`, and the entries follow their own bit `ld`. -/
theorem splitBucket_bucketAt {t : ExtendibleHashTable K V} (h : Inv hash t) {key : K}
    {i0 ld : Nat} (hi0 : i0 < 2 ^ t.globalDepth) (hkey : hash key % 2 ^ ld = i0 % 2 ^ ld) {j : Nat}
    (hj : j < 2 ^ t.globalDepth) :
    (t.splitBucket hash key i0 ld).bucketAt j =
      if j % 2 ^ ld = i0 % 2 ^ ld then
        ⟨(t.bucketAt i0).list.filter (fun e => (hash e.1).testBit ld == j.testBit ld), ld + 1⟩
      else t.bucketAt j := by
  have hR : redistribute hash t.bucketSize (2 ^ ld) (t.bucketAt i0).list ⟨[], ld + 1⟩ ⟨[], ld + 1⟩ =
      (⟨(t.bucketAt i0).list.filter (fun e => !(hash e.1).testBit ld), ld + 1⟩,
       ⟨(t.bucketAt i0).list.filter (fun e => (hash e.1).testBit ld), ld + 1⟩) := by
    rw [redistribute_eq hash _ _ _ _ _ (h.keys_nodup i0 hi0) (by simp)
      (by simpa using h.length_le i0 hi0) (by simpa using h.length_le i0 hi0)]
    simp [and_two_pow_ne_zero]
  have hlt := h.slot_lt j hj
  have hs := splitBucket_slot hash t key i0 ld (h.dir_length ▸ hj)
  rw [hkey] at hs
  show (t.splitBucket hash key i0 ld).buckets ((t.splitBucket hash key i0 ld).slot j) = _
  rw [hs]
  by_cases hA : j % 2 ^ ld = i0 % 2 ^ ld
  · rw [if_pos hA, if_pos hA]
    simp only [splitBucket, hR]
    cases j.testBit ld <;> simp [Function.update_apply]
  · rw [if_neg hA, if_neg hA]
    simp only [splitBucket]
    rw [Function.update_noteq (Nat.lt_succ_of_lt hlt).ne, Function.update_noteq hlt.ne]
    rfl

theorem Inv.splitBucket {t : ExtendibleHashTable K V} (h : Inv hash t) {key : K} {i0 ld : Nat}
    (hi0 : i0 < 2 ^ t.globalDepth) (hld : (t.bucketAt i0).depth = ld) (hlt : ld < t.globalDepth)
    (hkey : hash key % 2 ^ ld = i0 % 2 ^ ld) : Inv hash (t.splitBucket hash key i0 ld) := by
  have hA : ∀ j < 2 ^ t.globalDepth, (j % 2 ^ ld = i0 % 2 ^ ld ↔ t.slot j = t.slot i0) := by
    intro j hj; rw [h.slot_eq_iff i0 hi0 j hj, hld]
  have hslot : ∀ j < 2 ^ t.globalDepth, (t.splitBucket hash key i0 ld).slot j =
      if j % 2 ^ ld = i0 % 2 ^ ld then (if j.testBit ld then t.nextBucket + 1 else t.nextBucket)
      else t.slot j := fun j hj => by
    rw [splitBucket_slot hash t key i0 ld (h.dir_length ▸ hj), hkey]
  have hbucket := fun {j} (hj : j < 2 ^ t.globalDepth) => splitBucket_bucketAt h hi0 hkey hj
  refine ⟨⟨?_, ?_, ?_, ?_, ?_, ?_⟩, ?_⟩ <;> simp only [splitBucket_globalDepth]
  · rw [splitBucket_dir_length]; exact h.dir_length
  · intro j hj
    rw [hbucket hj]
    split_ifs
    · exact hlt
    · exact h.depth_le j hj
  · intro j hj j' hj'
    rw [hslot j hj, hslot j' hj', hbucket hj]
    have hltj := h.slot_lt j hj
    have hltj' := h.slot_lt j' hj'
    by_cases hAj : j % 2 ^ ld = i0 % 2 ^ ld
    · simp only [if_pos hAj, mod_two_pow_succ_eq_iff]
      by_cases hAj' : j' % 2 ^ ld = i0 % 2 ^ ld
      · rw [if_pos hAj', hAj', hAj]
        cases j.testBit ld <;> cases j'.testBit ld <;> simp
      · rw [if_neg hAj']
        constructor
        · intro heq; split_ifs at heq <;> omega
        · rintro ⟨hmod, -⟩; exact absurd (hmod.trans hAj) hAj'
    · simp only [if_neg hAj]
      by_cases hAj' : j' % 2 ^ ld = i0 % 2 ^ ld
      · rw [if_pos hAj']
        constructor
        · intro heq; split_ifs at heq <;> omega
        · intro hmod
          have hs := ((h.slot_eq_iff j hj j' hj').mpr hmod).symm.trans ((hA j' hj').mp hAj')
          exact absurd ((hA j hj).mpr hs) hAj
      · rw [if_neg hAj']; exact h.slot_eq_iff j hj j' hj'
  · intro j hj e he
    rw [hbucket hj] at he ⊢
    split_ifs at he ⊢ with hAj
    · obtain ⟨he, hbit⟩ := List.mem_filter.mp he
      have hmod := h.hash_mod i0 hi0 e he
      rw [hld] at hmod
      exact mod_two_pow_succ_eq_iff.mpr ⟨hmod.trans hAj.symm, beq_iff_eq.mp hbit⟩
    · exact h.hash_mod j hj e he
  · intro j hj
    rw [hbucket hj]
    split_ifs
    · exact (List.length_filter_le _ _).trans (h.length_le i0 hi0)
    · exact h.length_le j hj
  · intro j hj
    rw [hbucket hj]
    split_ifs
    · exact ((List.filter_sublist _).map Prod.fst).nodup (h.keys_nodup i0 hi0)
    · exact h.keys_nodup j hj
  · intro j hj
    rw [hslot j hj, splitBucket_nextBucket]
    have := h.slot_lt j hj
    split_ifs <;> omega

/-- One iteration of the split loop at the key's own slot keeps the invariant. -/
theorem Inv.split {t : ExtendibleHashTable K V} (h : Inv hash t) (key : K) :
    Inv hash (t.split hash key (t.indexOf hash key)) := by
  have hi := indexOf_lt hash t key
  have hle := h.depth_le _ hi
  have hkey : ∀ ld ≤ t.globalDepth,
      hash key % 2 ^ ld = t.indexOf hash key % 2 ^ ld := fun ld hld => by
    rw [indexOf_eq, mod_mod_two_pow hld]
  unfold ExtendibleHashTable.split
  dsimp only
  split_ifs with hd
  · have hlen := h.dir_length
    have hi' : t.indexOf hash key < 2 ^ (t.globalDepth + 1) :=
      hi.trans (Nat.pow_lt_pow_right Nat.one_lt_two (Nat.lt_succ_self _))
    have hb : t.double.bucketAt (t.indexOf hash key) = t.bucketAt (t.indexOf hash key) := by
      rw [double_bucketAt hlen hi', Nat.mod_eq_of_lt hi]
    exact h.double.splitBucket hi' (by rw [hb]) (by simp [hd])
      (hkey _ hle)
  · exact h.splitBucket hi rfl (lt_of_le_of_ne hle hd) (hkey _ hle)

theorem Inv.remove {t : ExtendibleHashTable K V} (h : Inv hash t) (key : K) :
    Inv hash (t.remove hash key).2 :=
  h.setBucket_of_keys (indexOf_lt hash t key) (Bucket.remove_snd _ key).1
    ((Bucket.remove_snd _ key).2.map Prod.fst)

/-- The final `Bucket::Insert` of `Insert` keeps the invariant when the key is present or its
bucket has room. -/
theorem Inv.insertAtIndex {t : ExtendibleHashTable K V} (h : Inv hash t) (key : K) (value : V)
    (hroom : (t.bucketAt (t.indexOf hash key)).find key ≠ none ∨
      (t.bucketAt (t.indexOf hash key)).isFull t.bucketSize = false) :
    Inv hash (t.insertAtIndex hash key value) := by
  have hi := indexOf_lt hash t key
  set b := t.bucketAt (t.indexOf hash key) with hb
  by_cases hfind : Bucket.findIn key b.list = none
  · have hroom' : b.list.length ≠ t.bucketSize := by
      simpa [Bucket.find, hfind, Bucket.isFull] using hroom
    have hins : b.insert t.bucketSize key value = _ := Bucket.insert_of_absent value hfind hroom'
    have hnot := Bucket.not_mem_of_findIn_eq_none hfind
    show Inv hash (t.setBucket (t.slot _) ((t.bucketAt (t.indexOf hash key)).insert
      t.bucketSize key value).2)
    rw [← hb, hins]
    refine h.setBucket hi rfl ?_ ?_ ?_
    · have hlen := h.length_le _ hi
      rw [← hb] at hlen
      simp only [List.length_append, List.length_singleton]
      omega
    · have hnd := h.keys_nodup _ hi
      rw [← hb] at hnd
      rw [List.map_append, List.nodup_append]
      exact ⟨hnd, List.nodup_singleton _, List.disjoint_singleton.mpr hnot⟩
    · intro e he
      rcases List.mem_append.mp he with he | he
      · exact h.hash_mod _ hi e he
      · rw [List.mem_singleton.mp he, indexOf_eq, mod_mod_two_pow (h.depth_le _ (indexOf_lt hash t key))]
  · obtain ⟨hd, hkeys, -⟩ := @Bucket.insert_of_present K V _ t.bucketSize _ _ value hfind
    exact h.setBucket_of_keys hi hd (hkeys ▸ List.Sublist.refl _)

/-! ## The split loop and `Insert` -/

/-- The split loop keeps the invariant, and when it stops the bucket of `key` has room. -/
theorem Inv.splitLoop (key : K) (fuel : Nat) :
    ∀ {t t' : ExtendibleHashTable K V}, Inv hash t → t.splitLoop hash key fuel = some t' →
      Inv hash t' ∧ (t'.bucketAt (t'.indexOf hash key)).isFull t'.bucketSize = false := by
  induction fuel with
  | zero =>
    intro t t' h hs
    unfold ExtendibleHashTable.splitLoop at hs
    split_ifs at hs with hfull
    cases hs
    exact ⟨h, by simpa using hfull⟩
  | succ n ih =>
    intro t t' h hs
    unfold ExtendibleHashTable.splitLoop at hs
    split_ifs at hs with hfull
    · exact ih (h.split key) hs
    · cases hs
      exact ⟨h, by simpa using hfull⟩

theorem Inv.insert {t t' : ExtendibleHashTable K V} (h : Inv hash t) {fuel : Nat} {key : K}
    {value : V} (hins : t.insert hash fuel key value = some t') : Inv hash t' := by
  unfold ExtendibleHashTable.insert at hins
  split_ifs at hins with hfound
  · cases hins
    exact h.insertAtIndex key value (.inl (Option.isSome_iff_ne_none.mp hfound))
  · obtain ⟨t1, hs, rfl⟩ := Option.map_eq_some'.mp hins
    obtain ⟨h1, hroom⟩ := h.splitLoop key fuel hs
    exact h1.insertAtIndex key value (.inr hroom)

/-- A split reads a local depth below the global depth it leaves. -/
theorem Inv.localDepth_lt_split {t : ExtendibleHashTable K V} (h : Inv hash t) (key : K)
    {index : Nat} (hi : index < 2 ^ t.globalDepth) :
    (t.bucketAt index).depth < (t.split hash key index).globalDepth := by
  have := h.depth_le index hi
  simp only [ExtendibleHashTable.split, splitBucket_globalDepth]
  split_ifs <;> simp <;> omega

theorem Inv.step {t t' : ExtendibleHashTable K V} (h : Inv hash t) (hs : Step hash t t') :
    Inv hash t' := by
  cases hs with
  | insert fuel key value hins => exact h.insert hins
  | remove key => exact h.remove key

theorem Inv.of_reachable {bucketSize : Nat} {t : ExtendibleHashTable K V}
    (h : Reachable hash bucketSize t) : Inv hash t := by
  induction h with
  | refl => exact inv_new bucketSize
  | tail _ hs ih => exact ih.step hs

end

end Bustub.ExtendibleHashTable
