import Mathlib.Data.List.GetD
import Bustub.Basic

/-!
# Pages of the B+ tree

`BPlusTreeLeafPage` and `BPlusTreeInternalPage` (`storage/page/b_plus_tree_leaf_page.cpp`, which
also holds the internal page) keep their pairs in `array_`, an array at the end of the page.  Only
its first `GetSize()` slots hold pairs, but the code moves slots by position with `std::move`,
`std::move_backward` and `std::copy`, and keeps references to slots across such moves.  So the
model keeps the slots themselves: `array` lists the slots written so far, and a slot never
written reads as `default`, as the memory of a page that `NewPage` zeroed does.  `valid` is the
list of the first `size` slots, the pairs the page holds.

Keys are `Int`, in the order `KeyComparator` gives them.  `KeyIndex`, `LookUp`, `Insert` and
`Remove` of a leaf find a key with `std::lower_bound`, modelled as the first valid slot whose key
is not below it, which is what the binary search returns on a sorted page.

The operations of one page are here.  Those that move pairs between two pages, or that fetch the
children of an internal page to set their parent page id, act on the page store (`BPlusTree`).
-/

namespace Bustub

/-- `INVALID_PAGE_ID`. -/
def invalidPageId : Int := -1

/-- The operations `GetLeafPage` and `IsPageSafe` tell apart, `Operation`. -/
inductive Operation
  | search
  | insert
  | delete
  deriving DecidableEq, Repr

/-! ## Slots -/

namespace Slots

variable {α : Type} [Inhabited α]

/-- Slot `i` of an array. -/
def read (a : List α) (i : Nat) : α := a.getD i default

/-- The array with slot `i` set to `x`; the slots between the written ones and `i` stay zero. -/
def write (a : List α) (i : Nat) (x : α) : List α :=
  (a ++ List.replicate (i + 1 - a.length) default).set i x

/-- The `n` slots from slot `first`. -/
def slots (a : List α) (first n : Nat) : List α :=
  (List.range n).map fun j => read a (first + j)

/-- `std::move(array_ + first, array_ + first + n, array_ + dFirst)`: the `n` slots from `first`
are copied to the slots from `dFirst`, front to back. -/
def moveForward (a : List α) (first dFirst : Nat) : Nat → List α
  | 0 => a
  | n + 1 => moveForward (write a dFirst (read a first)) (first + 1) (dFirst + 1) n

/-- `std::move_backward(array_ + first, array_ + first + n, array_ + dLast)`: the `n` slots from
`first` are copied to the `n` slots that end before `dLast`, back to front. -/
def moveBackward (a : List α) (first dLast : Nat) : Nat → List α
  | 0 => a
  | n + 1 => moveBackward (write a (dLast - 1) (read a (first + n))) first (dLast - 1) n

/-- `std::copy(items, items + n, array_ + dFirst)`, from another page: `items` go to the slots
from `dFirst`. -/
def copyFrom (a : List α) (dFirst : Nat) : List α → List α
  | [] => a
  | x :: items => copyFrom (write a dFirst x) (dFirst + 1) items

theorem read_append_replicate (a : List α) (n j : Nat) :
    read (a ++ List.replicate n default) j = read a j := by
  unfold read
  by_cases hj : j < a.length
  · rw [List.getD_append _ _ _ _ hj]
  · have hdefault : a.getD j default = default := List.getD_eq_default a default (by omega)
    rw [List.getD_append_right _ _ _ _ (by omega), hdefault]
    by_cases h : j - a.length < n
    · rw [List.getD_eq_getElem _ _ (by simpa using h), List.getElem_replicate]
    · exact List.getD_eq_default _ default (by simp only [List.length_replicate]; omega)

theorem read_write (a : List α) (i j : Nat) (x : α) :
    read (write a i x) j = if j = i then x else read a j := by
  have hlen : i < (a ++ List.replicate (i + 1 - a.length) default).length := by simp; omega
  unfold write
  by_cases hji : j = i
  · subst hji
    rw [if_pos rfl, read, List.getD_eq_getElem _ _ (by simpa using hlen), List.getElem_set_self]
  · rw [if_neg hji, read, List.getD_eq_getElem?_getD, List.getElem?_set_ne (Ne.symm hji),
      ← List.getD_eq_getElem?_getD]
    exact read_append_replicate a _ j

/-- `std::move` one slot down: the slots `d + 1` to `d + n` move to `d` to `d + n - 1`. -/
theorem read_moveForward (a : List α) (d j : Nat) :
    ∀ n, read (moveForward a (d + 1) d n) j = if d ≤ j ∧ j < d + n then read a (j + 1) else read a j
  | 0 => by rw [moveForward, if_neg (by omega)]
  | n + 1 => by
    rw [moveForward, read_moveForward _ (d + 1) j n, read_write, read_write]
    by_cases hj : j = d
    · subst hj; simp
    · by_cases hlo : d + 1 ≤ j ∧ j < d + 1 + n
      · rw [if_pos hlo, if_neg (by omega), if_pos (by omega)]
      · rw [if_neg hlo, if_neg hj, if_neg (by omega)]

/-- `std::move_backward` one slot up: the slots `f` to `f + n - 1` move to `f + 1` to `f + n`. -/
theorem read_moveBackward (a : List α) (f j : Nat) :
    ∀ n, read (moveBackward a f (f + n + 1) n) j =
      if f < j ∧ j ≤ f + n then read a (j - 1) else read a j
  | 0 => by rw [moveBackward, if_neg (by omega)]
  | n + 1 => by
    rw [moveBackward, show f + (n + 1) + 1 - 1 = f + n + 1 by omega, read_moveBackward _ f j n,
      read_write, read_write]
    by_cases hj : j = f + n + 1
    · subst hj
      rw [if_neg (by omega), if_pos rfl, if_pos (by omega), Nat.add_sub_cancel]
    · by_cases hlo : f < j ∧ j ≤ f + n
      · rw [if_pos hlo, if_neg (by omega), if_pos (by omega)]
      · rw [if_neg hlo, if_neg hj, if_neg (by omega)]

/-- `std::copy` of `items` to the slots from `d`. -/
theorem read_copyFrom (j : Nat) : ∀ (a : List α) (d : Nat) (items : List α),
    read (copyFrom a d items) j =
      if d ≤ j ∧ j < d + items.length then read items (j - d) else read a j
  | a, d, [] => by rw [copyFrom, if_neg (by simp)]
  | a, d, x :: items => by
    rw [copyFrom, read_copyFrom j _ (d + 1) items, read_write, List.length_cons]
    by_cases hj : j = d
    · subst hj
      rw [if_neg (by omega), if_pos rfl, if_pos (by omega), Nat.sub_self]
      rfl
    · by_cases hlo : d + 1 ≤ j ∧ j < d + 1 + items.length
      · rw [if_pos hlo, if_pos (by omega), show j - d = (j - (d + 1)) + 1 by omega]
        rfl
      · rw [if_neg hlo, if_neg hj, if_neg (by omega)]

theorem read_mem {a : List α} {i : Nat} (h : i < a.length) : read a i ∈ a := by
  rw [read, List.getD_eq_getElem _ _ h]
  exact List.getElem_mem h

end Slots

/-! ## The header -/

/-- The header of a page of the tree, `BPlusTreePage` (its `lsn_` and `page_type_` left out: the
type is the constructor of `TreePage`). -/
structure PageHeader where
  size : Nat
  maxSize : Nat
  parentPageId : Int
  pageId : Int
  deriving DecidableEq, Repr

/-- `BPlusTreeLeafPage`: the header, `next_page_id_` and the slots of `array_`. -/
structure LeafPage (V : Type) where
  header : PageHeader
  nextPageId : Int
  array : List (Int × V)
  deriving DecidableEq, Repr

/-- `BPlusTreeInternalPage`: the header and the slots of `array_`, pairs of a key and the page id
of a child.  The key of slot 0 is not used. -/
structure InternalPage where
  header : PageHeader
  array : List (Int × Int)
  deriving DecidableEq, Repr

/-- A page of the tree, as `reinterpret_cast` reads it: a leaf or an internal page. -/
inductive TreePage (V : Type)
  | leaf (page : LeafPage V)
  | internal (page : InternalPage)
  deriving DecidableEq, Repr

namespace TreePage

variable {V : Type}

/-- The header. -/
def header : TreePage V → PageHeader
  | leaf page => page.header
  | internal page => page.header

/-- `IsLeafPage()`. -/
def isLeafPage : TreePage V → Bool
  | leaf _ => true
  | internal _ => false

/-- `IsRootPage()`: the page has no parent. -/
def isRootPage (page : TreePage V) : Bool := page.header.parentPageId == invalidPageId

/-- `GetMinSize()`: half of `max_size_`, rounded up on an internal page. -/
def getMinSize (page : TreePage V) : Nat :=
  if page.isLeafPage then page.header.maxSize / 2
  else if page.header.maxSize % 2 = 0 then page.header.maxSize / 2
  else (page.header.maxSize + 1) / 2

theorem getMinSize_le_maxSize (page : TreePage V) : page.getMinSize ≤ page.header.maxSize := by
  unfold getMinSize
  split
  · omega
  · split <;> omega

/-- `SetParentPageId(parent_page_id)`. -/
def setParentPageId (parentPageId : Int) : TreePage V → TreePage V
  | leaf page => leaf { page with header := { page.header with parentPageId } }
  | internal page => internal { page with header := { page.header with parentPageId } }

/-- `IsPageSafe(btree_page, op)`: whether `op` leaves the page's parent alone whatever happens
below it.  `size < max - 1` is written `size + 1 < max`, the same over `int`. -/
def isPageSafe (page : TreePage V) : Operation → Bool
  | .search => true
  | .insert =>
    if page.isLeafPage then page.header.size + 1 < page.header.maxSize
    else page.header.size < page.header.maxSize
  | .delete =>
    if page.isRootPage then
      if page.isLeafPage then 1 < page.header.size else 2 < page.header.size
    else page.getMinSize < page.header.size

@[simp] theorem header_leaf (page : LeafPage V) : (leaf page).header = page.header := rfl

@[simp] theorem header_internal (page : InternalPage) :
    (internal page : TreePage V).header = page.header := rfl

@[simp] theorem header_setParentPageId (parentPageId : Int) (page : TreePage V) :
    (page.setParentPageId parentPageId).header = { page.header with parentPageId } := by
  cases page <;> rfl

@[simp] theorem isLeafPage_setParentPageId (parentPageId : Int) (page : TreePage V) :
    (page.setParentPageId parentPageId).isLeafPage = page.isLeafPage := by
  cases page <;> rfl

end TreePage

/-! ## Leaf pages -/

namespace LeafPage

variable {V : Type} [Inhabited V]

/-- `Init(page_id, parent_id, max_size)` on a page that `NewPage` zeroed. -/
def new (pageId parentId : Int) (maxSize : Nat) : LeafPage V :=
  ⟨⟨0, maxSize, parentId, pageId⟩, invalidPageId, []⟩

/-- The pairs the page holds, its first `GetSize()` slots. -/
def valid (page : LeafPage V) : List (Int × V) := page.array.take page.header.size

/-- `KeyAt(index)`. -/
def keyAt (page : LeafPage V) (index : Nat) : Int := (Slots.read page.array index).1

/-- `KeyIndex(key, comparator)`: `std::lower_bound` over the pairs. -/
def keyIndex (page : LeafPage V) (key : Int) : Nat :=
  page.valid.findIdx fun pair => !decide (pair.1 < key)

/-- `LookUp(key, value, comparator)`: the value of `key`, if the page holds it. -/
def lookUp (page : LeafPage V) (key : Int) : Option V :=
  let index := page.keyIndex key
  if index < page.header.size ∧ page.keyAt index = key then
    some (Slots.read page.array index).2
  else none

/-- `Insert(key, value, comparator)`: the page with the pair put in its place, unless the key is
there, and `GetSize()` after. -/
def insert (page : LeafPage V) (key : Int) (value : V) : LeafPage V × Nat :=
  let index := page.keyIndex key
  let size := page.header.size
  if index = size ∨ page.keyAt index ≠ key then
    let array :=
      if index ≠ size then Slots.moveBackward page.array index (size + 1) (size - index)
      else page.array
    ({ page with array := Slots.write array index (key, value),
                 header := { page.header with size := size + 1 } }, size + 1)
  else (page, size)

/-- `Remove(key, comparator)`: the page without the pair of `key`, if it holds one, and
`GetSize()` after. -/
def remove (page : LeafPage V) (key : Int) : LeafPage V × Nat :=
  let index := page.keyIndex key
  let size := page.header.size
  if index = size ∨ page.keyAt index ≠ key then (page, size)
  else
    ({ page with array := Slots.moveForward page.array (index + 1) index (size - index - 1),
                 header := { page.header with size := size - 1 } }, size - 1)

/-- `Insert` changes only the size of the header, to the size it returns. -/
theorem insert_header (page : LeafPage V) (key : Int) (value : V) :
    (page.insert key value).1.header = { page.header with size := (page.insert key value).2 } := by
  simp only [insert]
  split <;> rfl

/-- `Insert` adds one pair, or none on a duplicate key. -/
theorem insert_size (page : LeafPage V) (key : Int) (value : V) :
    (page.insert key value).2 = page.header.size ∨ (page.insert key value).2 = page.header.size + 1 := by
  simp only [insert]
  split
  · exact .inr rfl
  · exact .inl rfl

/-- `Remove` changes only the size of the header, to the size it returns. -/
theorem remove_header (page : LeafPage V) (key : Int) :
    (page.remove key).1.header = { page.header with size := (page.remove key).2 } := by
  simp only [remove]
  split <;> rfl

/-- `Remove` takes out one pair, or none. -/
theorem remove_size (page : LeafPage V) (key : Int) :
    (page.remove key).2 = page.header.size ∨ (page.remove key).2 = page.header.size - 1 := by
  simp only [remove]
  split
  · exact .inl rfl
  · exact .inr rfl

omit [Inhabited V] in
theorem keyIndex_le (page : LeafPage V) (key : Int) : page.keyIndex key ≤ page.header.size :=
  Nat.le_trans (List.findIdx_le_length _) (List.length_take_le _ _)

/-- `Remove` leaves a page that does not hold the key as it was. -/
theorem remove_of_lookUp_eq_none {page : LeafPage V} {key : Int} (h : page.lookUp key = none) :
    page.remove key = (page, page.header.size) := by
  have hfound : ¬ (page.keyIndex key < page.header.size ∧ page.keyAt (page.keyIndex key) = key) :=
    fun hfound => Option.some_ne_none _ ((if_pos hfound).symm.trans h)
  rw [remove, if_pos]
  by_cases hsize : page.keyIndex key = page.header.size
  · exact Or.inl hsize
  · exact Or.inr fun hkey => hfound ⟨Nat.lt_of_le_of_ne (page.keyIndex_le key) hsize, hkey⟩

/-- The first two steps of `MoveFirstToEnd`: the slots shift down over slot 0, and the size drops. -/
def removeFirst (page : LeafPage V) : LeafPage V :=
  { page with array := Slots.moveForward page.array 1 0 (page.header.size - 1),
              header := { page.header with size := page.header.size - 1 } }

/-- `CopyNFrom(items, size)`: the pairs are appended. -/
def copyNFrom (page : LeafPage V) (items : List (Int × V)) : LeafPage V :=
  { page with array := Slots.copyFrom page.array page.header.size items,
              header := { page.header with size := page.header.size + items.length } }

/-- `CopyLastFrom(item)`. -/
def copyLastFrom (page : LeafPage V) (item : Int × V) : LeafPage V :=
  { page with array := Slots.write page.array page.header.size item,
              header := { page.header with size := page.header.size + 1 } }

/-- The first step of `CopyFirstFrom(item)`: the slots shift up by one. -/
def shiftUp (page : LeafPage V) : LeafPage V :=
  { page with array := Slots.moveBackward page.array 0 (page.header.size + 1) page.header.size }

/-- The last steps of `CopyFirstFrom(item)`: slot 0 is set and the size grows. -/
def setFirst (page : LeafPage V) (item : Int × V) : LeafPage V :=
  { page with array := Slots.write page.array 0 item,
              header := { page.header with size := page.header.size + 1 } }

end LeafPage

/-! ## Internal pages -/

namespace InternalPage

/-- `Init(page_id, parent_id, max_size)` on a page that `NewPage` zeroed. -/
def new (pageId parentId : Int) (maxSize : Nat) : InternalPage :=
  ⟨⟨0, maxSize, parentId, pageId⟩, []⟩

/-- The pairs the page holds. -/
def valid (page : InternalPage) : List (Int × Int) := page.array.take page.header.size

/-- `KeyAt(index)`. -/
def keyAt (page : InternalPage) (index : Nat) : Int := (Slots.read page.array index).1

/-- `ValueAt(index)`: the page id of a child. -/
def valueAt (page : InternalPage) (index : Nat) : Int := (Slots.read page.array index).2

/-- `SetKeyAt(index, key)`. -/
def setKeyAt (page : InternalPage) (index : Nat) (key : Int) : InternalPage :=
  { page with array := Slots.write page.array index (key, page.valueAt index) }

/-- `ValueIndex(value)`: the slot of the child `value`, or `GetSize()` if there is none. -/
def valueIndex (page : InternalPage) (value : Int) : Nat :=
  page.valid.findIdx fun pair => pair.2 == value

/-- The child `GetLeafPage` descends to for `key`: the child before the first key from slot 1 on
that is above `key`, or else the last child. -/
def lookupChild (page : InternalPage) (key : Int) : Int :=
  match (List.range' 1 (page.header.size - 1)).find? fun i => key < page.keyAt i with
  | some i => page.valueAt (i - 1)
  | none => page.valueAt (page.header.size - 1)

/-- `GetLeafPage` descends to the child in one of the page's first `GetSize()` slots. -/
theorem lookupChild_mem (page : InternalPage) (key : Int) (h : 1 ≤ page.header.size) :
    ∃ i < page.header.size, page.lookupChild key = page.valueAt i := by
  unfold lookupChild
  split
  · rename_i i hi
    have := List.mem_range'_1.mp (List.mem_of_find?_eq_some hi)
    exact ⟨i - 1, by omega, rfl⟩
  · exact ⟨page.header.size - 1, by omega, rfl⟩

/-- `PopulateNewRoot(first_value, second_key, second_value)`. -/
def populateNewRoot (page : InternalPage) (firstValue : Int) (secondKey : Int)
    (secondValue : Int) : InternalPage :=
  { page with
    array := Slots.write (Slots.write page.array 0 (page.keyAt 0, firstValue)) 1
      (secondKey, secondValue),
    header := { page.header with size := page.header.size + 2 } }

/-- `Insert(old_value, new_key, new_value)`: the pair goes right after the child `old_value`;
returns `GetSize()` after. -/
def insert (page : InternalPage) (oldValue newKey newValue : Int) : InternalPage × Nat :=
  let index := page.valueIndex oldValue + 1
  let size := page.header.size
  ({ page with
    array := Slots.write (Slots.moveBackward page.array index (size + 1) (size - index)) index
      (newKey, newValue),
    header := { page.header with size := size + 1 } }, size + 1)

/-- `ValueIndex` finds a child in one of the first `GetSize()` slots. -/
theorem valueIndex_lt (page : InternalPage) {i : Nat} (hi : i < page.header.size) :
    page.valueIndex (page.valueAt i) < page.header.size := by
  unfold valueIndex
  by_cases hlen : page.valid.length < page.header.size
  · exact Nat.lt_of_le_of_lt (List.findIdx_le_length _) hlen
  · have hvalid : i < page.valid.length := by omega
    have harray : i < page.array.length := by
      simp only [valid, List.length_take] at hvalid
      omega
    refine Nat.lt_of_lt_of_le (List.findIdx_lt_length_of_exists
      ⟨page.valid[i], List.getElem_mem hvalid, ?_⟩) (List.length_take_le _ _)
    simp [valid, valueAt, Slots.read, List.getElem?_eq_getElem harray]

theorem valueAt_eq_valid (page : InternalPage) {k : Nat} (hk : k < page.valid.length) :
    page.valueAt k = page.valid[k].2 := by
  have hk' : k < page.array.length := by
    simp only [valid, List.length_take, Nat.lt_min] at hk
    exact hk.2
  simp [valueAt, valid, Slots.read, List.getElem?_eq_getElem hk']

/-- On a page whose first `GetSize()` slots are written, `ValueIndex` finds the slot of a child
it holds. -/
theorem valueAt_valueIndex (page : InternalPage) (hlen : page.header.size ≤ page.array.length)
    {i : Nat} (hi : i < page.header.size) :
    page.valueAt (page.valueIndex (page.valueAt i)) = page.valueAt i := by
  have hvalid : page.valid.length = page.header.size := by
    simp only [valid, List.length_take]
    omega
  have hex : ∃ x ∈ page.valid, (fun pair : Int × Int => pair.2 == page.valueAt i) x := by
    have hi' : i < page.valid.length := hvalid ▸ hi
    refine ⟨page.valid[i], List.getElem_mem _, ?_⟩
    simp [valid, valueAt, Slots.read, List.getElem?_eq_getElem (Nat.lt_of_lt_of_le hi hlen)]
  have hlt := List.findIdx_lt_length_of_exists hex
  have hfound := List.findIdx_getElem (w := hlt)
  simp only [beq_iff_eq] at hfound
  exact (page.valueAt_eq_valid hlt).trans hfound

/-- After `Insert(old_value, ...)` for a child the page holds, each of the first `GetSize()` slots
names the new child or a child the page held before. -/
theorem valueAt_insert (page : InternalPage) {oldValue newKey newValue : Int}
    (hold : page.valueIndex oldValue < page.header.size) {j : Nat} (hj : j < page.header.size + 1) :
    (page.insert oldValue newKey newValue).1.valueAt j = newValue ∨
      ∃ i < page.header.size,
        (page.insert oldValue newKey newValue).1.valueAt j = page.valueAt i := by
  have hshift : ∀ n, page.header.size - (page.valueIndex oldValue + 1) = n →
      Slots.read (Slots.moveBackward page.array (page.valueIndex oldValue + 1)
        (page.header.size + 1) n) j =
      if page.valueIndex oldValue + 1 < j ∧ j ≤ page.valueIndex oldValue + 1 + n
      then Slots.read page.array (j - 1) else Slots.read page.array j := by
    intro n hn
    rw [show page.header.size + 1 = page.valueIndex oldValue + 1 + n + 1 by omega]
    exact Slots.read_moveBackward _ _ _ n
  simp only [insert, valueAt, Slots.read_write, hshift _ rfl]
  split
  · exact .inl rfl
  · split
    · exact .inr ⟨j - 1, by omega, rfl⟩
    · exact .inr ⟨j, by omega, rfl⟩

/-- `Remove(index)`. -/
def remove (page : InternalPage) (index : Nat) : InternalPage :=
  { page with
    array := Slots.moveForward page.array (index + 1) index (page.header.size - index - 1),
    header := { page.header with size := page.header.size - 1 } }

/-- `SetKeyAt` leaves every child where it was. -/
@[simp] theorem valueAt_setKeyAt (page : InternalPage) (i : Nat) (key : Int) (j : Nat) :
    (page.setKeyAt i key).valueAt j = page.valueAt j := by
  unfold setKeyAt valueAt
  rw [Slots.read_write]
  split <;> simp_all

/-- The children the pairs of a page name are in its first `GetSize()` slots. -/
theorem exists_valueAt_of_mem_valid {page : InternalPage} {item : Int × Int}
    (h : item ∈ page.valid) : ∃ j < page.header.size, item.2 = page.valueAt j := by
  obtain ⟨j, hj, rfl⟩ := List.mem_iff_getElem.mp h
  have hj' : j < page.header.size ∧ j < page.array.length := by
    simpa [valid, Nat.lt_min] using hj
  refine ⟨j, hj'.1, ?_⟩
  simp [valid, valueAt, Slots.read, List.getElem?_eq_getElem hj'.2]

/-- After `Remove(index)`, each of the first `GetSize()` slots names a child the page held. -/
theorem valueAt_remove (page : InternalPage) (index : Nat) {j : Nat}
    (hj : j < page.header.size - 1) :
    ∃ i < page.header.size, (page.remove index).valueAt j = page.valueAt i := by
  unfold remove valueAt
  rw [Slots.read_moveForward]
  split
  · exact ⟨j + 1, by omega, rfl⟩
  · exact ⟨j, by omega, rfl⟩

end InternalPage

end Bustub
