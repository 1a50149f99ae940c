import Bustub.Index.Bounds

/-!
# Inserting into a page

`Insert` of a leaf and of an internal page shifts the slots from the insertion point up by one,
with `std::move_backward`, and writes the new pair in the gap.  This module reads the result as
a list: the page's pairs with the new one put at the insertion point (`Slots.take_insertAt`).

*Leaves.*  `KeyIndex` is the length of the run of pairs with smaller keys
(`LeafPage.keyIndex_eq_length_takeWhile`).  On a page with strictly increasing keys, `Insert`
leaves the page alone when it holds the key, and otherwise puts the pair after the smaller keys
and before the larger ones (`LeafPage.insert_of_not_mem`); `LookUp` is `List.lookup`.

*Splits.*  `MoveHalfTo` copies the slots from `GetMinSize()` on to a new page: its pairs are the
`drop` of the page's, and the page keeps the `take` (`Slots.copyFrom_length`, `Slots.slots_eq`).
-/

namespace Bustub

namespace Slots

variable {α : Type} [Inhabited α]

theorem length_write (a : List α) (i : Nat) (x : α) :
    (write a i x).length = max a.length (i + 1) := by
  simp only [write, List.length_set, List.length_append, List.length_replicate]
  omega

theorem le_length_moveBackward (f : Nat) :
    ∀ (n : Nat) (a : List α) (d : Nat), a.length ≤ (moveBackward a f d n).length
  | 0, _, _ => Nat.le_refl _
  | n + 1, a, d => by
    rw [moveBackward]
    exact Nat.le_trans (by rw [length_write]; omega) (le_length_moveBackward f n _ _)

theorem read_eq_getElem {a : List α} {i : Nat} (h : i < a.length) : read a i = a[i] :=
  List.getD_eq_getElem _ _ h

theorem take_eq_map_read {a : List α} {n : Nat} (h : n ≤ a.length) :
    a.take n = (List.range n).map (read a) := by
  apply List.ext_getElem (by simp; omega)
  intro i h₁ h₂
  simp only [List.getElem_take, List.getElem_map, List.getElem_range, read]
  rw [List.getD_eq_getElem]

/-- Shifting the first `size` slots from `idx` up by one and writing `x` at `idx` puts `x` at
`idx` among them. -/
theorem take_insertAt {a : List α} {size idx : Nat} (x : α) (hidx : idx ≤ size)
    (hlen : size ≤ a.length) :
    size + 1 ≤ (write (moveBackward a idx (size + 1) (size - idx)) idx x).length ∧
      (write (moveBackward a idx (size + 1) (size - idx)) idx x).take (size + 1) =
        (a.take size).take idx ++ x :: (a.take size).drop idx := by
  have hd : size + 1 = idx + (size - idx) + 1 := by omega
  have hlen' : size + 1 ≤ (write (moveBackward a idx (size + 1) (size - idx)) idx x).length := by
    rw [length_write]
    have := le_length_moveBackward idx (size - idx) a (size + 1)
    by_cases hs : idx = size
    · omega
    · obtain ⟨m, hm⟩ : ∃ m, size - idx = m + 1 := ⟨size - idx - 1, by omega⟩
      have h₁ : size + 1 ≤ (moveBackward a idx (size + 1) (size - idx)).length := by
        rw [hm, moveBackward]
        refine Nat.le_trans ?_ (le_length_moveBackward idx m _ _)
        rw [length_write]
        omega
      omega
  refine ⟨hlen', ?_⟩
  rw [take_eq_map_read hlen']
  apply List.ext_getElem (by simp; omega)
  intro j h₁ h₂
  simp only [List.getElem_map, List.getElem_range, read_write]
  have hlt : j < size + 1 := by simpa using h₁
  rw [hd, read_moveBackward]
  by_cases hj : j < idx
  · rw [if_neg (by omega), if_neg (by omega), List.getElem_append_left (by simp; omega)]
    simp only [List.getElem_take, read]
    rw [List.getD_eq_getElem]
  · have hA : ((a.take size).take idx).length = idx := by simp; omega
    rw [List.getElem_append_right (by omega)]
    simp only [hA]
    by_cases hji : j = idx
    · subst hji
      simp
    · rw [if_neg hji, if_pos (by omega)]
      obtain ⟨k, hk⟩ : ∃ k, j - idx = k + 1 := ⟨j - idx - 1, by omega⟩
      simp only [hk, List.getElem_cons_succ, List.getElem_drop, List.getElem_take, read]
      rw [List.getD_eq_getElem _ _ (by omega)]
      congr 1
      omega

/-- A write just past the written slots appends. -/
theorem write_length (a : List α) (x : α) : write a a.length x = a ++ [x] := by
  simp [write, List.set_append_right]

/-- `std::copy` of `items` to the end of the written slots appends them. -/
theorem copyFrom_length : ∀ (a items : List α), copyFrom a a.length items = a ++ items
  | a, [] => by simp [copyFrom]
  | a, x :: items => by
    rw [copyFrom, write_length, show a.length + 1 = (a ++ [x]).length by simp, copyFrom_length,
      List.append_assoc, List.singleton_append]

/-- The `n` slots from `first`, within the written ones. -/
theorem slots_eq {a : List α} {first n : Nat} (h : first + n ≤ a.length) :
    slots a first n = (a.drop first).take n := by
  apply List.ext_getElem (by simp [slots]; omega)
  intro j h₁ h₂
  simp only [slots, List.getElem_map, List.getElem_range, List.getElem_take, List.getElem_drop,
    read]
  rw [List.getD_eq_getElem]

end Slots

namespace List

variable {α : Type} (q : α → Bool)

theorem findIdx_not_eq_length_takeWhile :
    ∀ l : List α, l.findIdx (fun x => !q x) = (l.takeWhile q).length
  | [] => rfl
  | x :: l => by
    rw [List.findIdx_cons, List.takeWhile_cons]
    by_cases h : q x <;> simp [h, findIdx_not_eq_length_takeWhile l]

theorem take_length_takeWhile : ∀ l : List α, l.take (l.takeWhile q).length = l.takeWhile q
  | [] => rfl
  | x :: l => by
    rw [List.takeWhile_cons]
    by_cases h : q x <;> simp [h, take_length_takeWhile l]

theorem drop_length_takeWhile : ∀ l : List α, l.drop (l.takeWhile q).length = l.dropWhile q
  | [] => rfl
  | x :: l => by
    rw [List.takeWhile_cons, List.dropWhile_cons]
    by_cases h : q x <;> simp [h, drop_length_takeWhile l]

end List

namespace LeafPage

variable {V : Type} [Inhabited V]

omit [Inhabited V] in
/-- `KeyIndex(key)` is the number of pairs before the first whose key is not below `key`. -/
theorem keyIndex_eq_length_takeWhile (page : LeafPage V) (key : Int) :
    page.keyIndex key = (page.valid.takeWhile fun pair => decide (pair.1 < key)).length :=
  List.findIdx_not_eq_length_takeWhile _ _

omit [Inhabited V] in
theorem length_valid (page : LeafPage V) (hlen : page.header.size ≤ page.array.length) :
    page.valid.length = page.header.size := by
  simp [valid]; omega

/-- A slot among the first `GetSize()` holds the pair `valid` lists there. -/
theorem read_eq_valid (page : LeafPage V) {i : Nat} (hi : i < page.valid.length) :
    Slots.read page.array i = page.valid[i] := by
  have hi' : i < page.array.length := by simp [valid] at hi; omega
  rw [Slots.read_eq_getElem hi']
  simp [valid]

omit [Inhabited V] in
/-- On a page with strictly increasing keys, the pairs before `KeyIndex(key)` have keys below
`key` and the others do not. -/
theorem keyIndex_split (page : LeafPage V) (key : Int)
    (hsort : (page.valid.map (·.1)).Pairwise (· < ·)) :
    (∀ x ∈ page.valid.take (page.keyIndex key), x.1 < key) ∧
      ∀ x ∈ page.valid.drop (page.keyIndex key), key ≤ x.1 := by
  rw [keyIndex_eq_length_takeWhile, List.take_length_takeWhile, List.drop_length_takeWhile]
  refine ⟨fun x hx => by simpa using List.mem_takeWhile_imp hx, fun x hx => ?_⟩
  have hsort' : ((page.valid.dropWhile fun pair => decide (pair.1 < key)).map (·.1)).Pairwise
      (· < ·) := by
    rw [← List.drop_length_takeWhile, List.map_drop]
    exact hsort.sublist (List.drop_sublist _ _)
  have hhead := List.head_dropWhile_not (fun pair : Int × V => decide (pair.1 < key)) page.valid
    (List.ne_nil_of_mem hx)
  generalize (page.valid.dropWhile fun pair => decide (pair.1 < key)) = B at hx hsort' hhead
  cases B with
  | nil => simp at hx
  | cons h B =>
    simp only [List.head_cons, decide_eq_false_iff_not, Int.not_lt] at hhead
    simp only [List.map_cons, List.pairwise_cons, List.mem_map] at hsort'
    rcases List.mem_cons.mp hx with rfl | hx
    · exact hhead
    · exact Int.le_of_lt (Int.lt_of_le_of_lt hhead (hsort'.1 _ ⟨x, hx, rfl⟩))

/-- On a page with strictly increasing keys that holds `key`, `KeyIndex(key)` is its slot. -/
theorem keyIndex_of_mem (page : LeafPage V) {key : Int}
    (hlen : page.header.size ≤ page.array.length)
    (hsort : (page.valid.map (·.1)).Pairwise (· < ·)) (hmem : key ∈ page.valid.map (·.1)) :
    page.keyIndex key < page.header.size ∧ page.keyAt (page.keyIndex key) = key := by
  have hvlen : page.valid.length = page.header.size := by simp [valid]; omega
  obtain ⟨hA, hB⟩ := page.keyIndex_split key hsort
  obtain ⟨x, hx, hxkey⟩ := List.mem_map.mp hmem
  rw [← List.take_append_drop (page.keyIndex key) page.valid, List.mem_append] at hx
  rcases hx with hx | hx
  · exact absurd (hA x hx) (by omega)
  obtain ⟨j, hj, rfl⟩ := List.mem_iff_getElem.mp hx
  have hidx : page.keyIndex key + j < page.header.size := by simp at hj; omega
  refine ⟨by omega, ?_⟩
  rw [keyAt, page.read_eq_valid (by rw [page.length_valid hlen]; omega)]
  rw [List.getElem_drop] at hxkey
  rcases Nat.eq_zero_or_pos j with rfl | hpos
  · exact hxkey
  · have hlt := List.pairwise_iff_getElem.mp hsort (page.keyIndex key) (page.keyIndex key + j)
      (by simp; omega) (by simp; omega) (by omega)
    simp only [List.getElem_map] at hlt
    have hge := hB page.valid[page.keyIndex key] (by
      rw [List.mem_iff_getElem]
      exact ⟨0, by simp; omega, by simp⟩)
    omega

/-- `Insert` of a key the page holds leaves the page as it was. -/
theorem insert_of_mem (page : LeafPage V) {key : Int} (value : V)
    (hlen : page.header.size ≤ page.array.length)
    (hsort : (page.valid.map (·.1)).Pairwise (· < ·)) (hmem : key ∈ page.valid.map (·.1)) :
    page.insert key value = (page, page.header.size) := by
  obtain ⟨hlt, hkey⟩ := page.keyIndex_of_mem hlen hsort hmem
  simp only [insert]
  rw [if_neg (by omega)]

/-- `Insert` of a key the page does not hold puts the pair after the pairs with smaller keys:
at `KeyIndex(key)`. -/
theorem insert_of_not_mem (page : LeafPage V) {key : Int} (value : V)
    (hlen : page.header.size ≤ page.array.length) (hnot : key ∉ page.valid.map (·.1)) :
    (page.insert key value).2 = page.header.size + 1 ∧
      page.header.size + 1 ≤ (page.insert key value).1.array.length ∧
      (page.insert key value).1.valid =
        page.valid.take (page.keyIndex key) ++ (key, value) :: page.valid.drop (page.keyIndex key) := by
  have hle := page.keyIndex_le key
  have hcond : page.keyIndex key = page.header.size ∨ page.keyAt (page.keyIndex key) ≠ key := by
    by_cases hs : page.keyIndex key = page.header.size
    · exact .inl hs
    · refine .inr fun hkey => hnot ?_
      rw [← hkey, List.mem_map, keyAt,
        page.read_eq_valid (by rw [page.length_valid hlen]; omega)]
      exact ⟨_, List.getElem_mem _, rfl⟩
  have harray : (if page.keyIndex key ≠ page.header.size then
      Slots.moveBackward page.array (page.keyIndex key) (page.header.size + 1)
        (page.header.size - page.keyIndex key) else page.array) =
      Slots.moveBackward page.array (page.keyIndex key) (page.header.size + 1)
        (page.header.size - page.keyIndex key) := by
    split
    · rfl
    · rename_i hs
      rw [not_not.mp hs, Nat.sub_self]
      rfl
  obtain ⟨hlen', htake⟩ := Slots.take_insertAt (key, value) hle hlen
  simp only [insert, if_pos hcond, harray]
  exact ⟨by simp, hlen', htake⟩

/-- `LookUp(key)` on a page with strictly increasing keys finds the value paired with `key`. -/
theorem lookUp_eq_lookup (page : LeafPage V) (key : Int)
    (hlen : page.header.size ≤ page.array.length)
    (hsort : (page.valid.map (·.1)).Pairwise (· < ·)) :
    page.lookUp key = page.valid.lookup key := by
  by_cases hmem : key ∈ page.valid.map (·.1)
  · obtain ⟨hlt, hkey⟩ := page.keyIndex_of_mem hlen hsort hmem
    have hvlen : page.keyIndex key < page.valid.length := by simp [valid]; omega
    rw [keyAt, page.read_eq_valid hvlen] at hkey
    have hnone : (page.valid.take (page.keyIndex key)).lookup key = none :=
      List.lookup_eq_none_iff.mpr fun x hx => by
        simpa using Int.ne_of_gt ((page.keyIndex_split key hsort).1 x hx)
    have hpair : page.valid[page.keyIndex key] = (key, page.valid[page.keyIndex key].2) :=
      Prod.ext hkey rfl
    have hfound : page.valid.lookup key = some page.valid[page.keyIndex key].2 := by
      conv_lhs => rw [← List.take_append_drop (page.keyIndex key) page.valid]
      rw [List.lookup_append, hnone, Option.none_or, List.drop_eq_getElem_cons hvlen, hpair]
      simp
    rw [lookUp, if_pos ⟨hlt, by rw [keyAt, page.read_eq_valid hvlen]; exact hkey⟩,
      page.read_eq_valid hvlen, hfound]
  · have hnone : page.valid.lookup key = none := List.lookup_eq_none_iff.mpr fun x hx => by
      simpa using fun h => hmem (List.mem_map.mpr ⟨x, hx, h.symm⟩)
    rw [lookUp, if_neg, hnone]
    rintro ⟨hlt, hkey⟩
    rw [keyAt, page.read_eq_valid (by rw [page.length_valid hlen]; omega)] at hkey
    exact hmem (List.mem_map.mpr ⟨_, List.getElem_mem _, hkey⟩)

end LeafPage

namespace InternalPage

theorem length_valid (page : InternalPage) (hlen : page.header.size ≤ page.array.length) :
    page.valid.length = page.header.size := by
  simp [valid]; omega

/-- A slot among the first `GetSize()` holds the pair `valid` lists there. -/
theorem read_eq_valid (page : InternalPage) {i : Nat} (hi : i < page.valid.length) :
    Slots.read page.array i = page.valid[i] := by
  have hi' : i < page.array.length := by simp [valid] at hi; omega
  rw [Slots.read_eq_getElem hi']
  simp [valid]

/-- On a page whose children are distinct, `ValueIndex` of the child in slot `i` is `i`. -/
theorem valueIndex_valueAt (page : InternalPage) (hlen : page.header.size ≤ page.array.length)
    (hnodup : (page.valid.map (·.2)).Nodup) {i : Nat} (hi : i < page.header.size) :
    page.valueIndex (page.valueAt i) = i := by
  have hvlen : page.valid.length = page.header.size := by simp [valid]; omega
  rw [valueIndex, List.findIdx_eq (by omega)]
  rw [valueAt, page.read_eq_valid (by rw [page.length_valid hlen]; omega)]
  refine ⟨by simp, fun j hj => ?_⟩
  have hne := List.pairwise_iff_getElem.mp hnodup j i (by simp; omega) (by simp; omega) hj
  simpa using hne

/-- `Insert(old_value, new_key, new_value)` puts the pair right after the slot of `old_value`. -/
theorem insert_valid (page : InternalPage) (oldValue newKey newValue : Int)
    (hlen : page.header.size ≤ page.array.length)
    (hidx : page.valueIndex oldValue < page.header.size) :
    (page.insert oldValue newKey newValue).2 = page.header.size + 1 ∧
      (page.insert oldValue newKey newValue).1.header =
        { page.header with size := page.header.size + 1 } ∧
      page.header.size + 1 ≤ (page.insert oldValue newKey newValue).1.array.length ∧
      (page.insert oldValue newKey newValue).1.valid =
        page.valid.take (page.valueIndex oldValue + 1) ++ (newKey, newValue) ::
          page.valid.drop (page.valueIndex oldValue + 1) := by
  obtain ⟨hlen', htake⟩ := Slots.take_insertAt (newKey, newValue) hidx hlen
  exact ⟨rfl, rfl, hlen', htake⟩

/-- The lower bounds of the children: the page's own, then the keys of the slots from 1 on. -/
theorem lowerBounds_eq (page : InternalPage) (lo : Option Int)
    (hlen : page.header.size ≤ page.array.length) (hsize : 1 ≤ page.header.size) :
    page.lowerBounds lo = lo :: (page.valid.drop 1).map fun pair => some pair.1 := by
  have hvlen : page.valid.length = page.header.size := by simp [valid]; omega
  apply List.ext_getElem (by simp [lowerBounds]; omega)
  intro j h₁ h₂
  simp only [lowerBounds, List.getElem_map, List.getElem_range, lowerBound]
  rcases Nat.eq_zero_or_pos j with rfl | hj
  · simp
  · obtain ⟨k, rfl⟩ : ∃ k, j = k + 1 := ⟨j - 1, by omega⟩
    simp only [List.length_map, List.length_range, lowerBounds] at h₁
    rw [if_neg (by omega), keyAt, page.read_eq_valid (by rw [page.length_valid hlen]; omega)]
    simp

/-- `GetLeafPage` goes on to a child whose bounds hold the key, when the page's do. -/
theorem lookupChild_spec (page : InternalPage) (key : Int) (lo hi : Option Int)
    (hsize : 1 ≤ page.header.size) (hkey : Node.inBounds lo hi key = true) :
    ∃ i < page.header.size, page.lookupChild key = page.valueAt i ∧
      Node.inBounds (page.lowerBound lo i)
        (if i + 1 = page.header.size then hi else some (page.keyAt (i + 1))) key = true := by
  simp only [Node.inBounds_iff, Option.mem_def] at hkey ⊢
  unfold lookupChild
  split
  · rename_i j hfind
    obtain ⟨hlt, as, bs, hl, has⟩ := List.find?_eq_some.mp hfind
    have hj := List.mem_range'_1.mp (List.mem_of_find?_eq_some hfind)
    refine ⟨j - 1, by omega, rfl, ?_, ?_⟩
    · intro l hl'
      simp only [InternalPage.lowerBound] at hl'
      split at hl'
      · exact hkey.1 l hl'
      · cases hl'
        have hmem : j - 1 ∈ as := by
          have hin : j - 1 ∈ as ++ j :: bs := hl ▸ List.mem_range'_1.mpr ⟨by omega, by omega⟩
          rcases List.mem_append.mp hin with h | h
          · exact h
          · have hsorted := hl ▸ List.pairwise_lt_range' 1 (page.header.size - 1)
            rcases List.mem_cons.mp h with h | h
            · omega
            · have := List.pairwise_append.mp hsorted
              have := (List.pairwise_cons.mp this.2.1).1 _ h
              omega
        simpa using has _ hmem
    · intro h hh
      rw [if_neg (by omega), Nat.sub_add_cancel (by omega)] at hh
      cases hh
      simpa using hlt
  · rename_i hnone
    have hnot := List.find?_eq_none.mp hnone
    refine ⟨page.header.size - 1, by omega, rfl, ?_, ?_⟩
    · intro l hl'
      simp only [InternalPage.lowerBound] at hl'
      split at hl'
      · exact hkey.1 l hl'
      · cases hl'
        simpa using hnot (page.header.size - 1) (List.mem_range'_1.mpr ⟨by omega, by omega⟩)
    · intro h hh
      rw [if_pos (by omega)] at hh
      exact hkey.2 h hh

/-- `PopulateNewRoot(first_value, second_key, second_value)` of a new page. -/
theorem populateNewRoot_valid (pageId parentId : Int) (maxSize : Nat) (firstValue secondKey
    secondValue : Int) :
    ((new pageId parentId maxSize).populateNewRoot firstValue secondKey secondValue).valid =
      [(default, firstValue), (secondKey, secondValue)] ∧
    ((new pageId parentId maxSize).populateNewRoot firstValue secondKey secondValue).array.length
      = 2 := by
  exact ⟨rfl, rfl⟩

end InternalPage

end Bustub
