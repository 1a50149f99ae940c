import Bustub.Index.Shape

/-!
# The index iterator

`IndexIterator` (`storage/index/index_iterator.cpp`) holds `page_id_`, the leaf `page_` it reads
and the slot `index_`.  `Begin()`, `Begin(key)` and `End()` (`storage/page/b_plus_tree_page.cpp`)
build one from a leaf and a slot, with `page_id_` the leaf's id.  `operator++` steps to the next
slot, and from the last slot of a leaf to slot 0 of the next leaf, but it moves `page_` only:
`page_id_` keeps the id of the leaf the iterator started in.  `operator==` compares `page_id_` and
`index_`.  So an iterator that has left its first leaf never equals `End()` of a tree with more
than one leaf (`next_pageId`, `scan_eq_none`), and a scan that compares with `End()` to stop
runs on past the last pair.

On an empty tree `Begin()` and `End()` return `IndexIterator()`, whose constructor sets
`page_id_` only; the model gives `none` there.  Latches and pins are left out.
-/

namespace Bustub

/-- `IndexIterator`: `page_id_`, the id of the leaf `page_` points to, and `index_`. -/
structure IndexIterator where
  pageId : Int
  page : Int
  index : Nat
  deriving DecidableEq, Repr

namespace BPlusTree

variable {V : Type} [Inhabited V]

/-- `Begin()`: slot 0 of the leftmost leaf. -/
def begin (t : BPlusTree V) (fuel : Nat) : Option IndexIterator :=
  if t.isEmpty then none
  else (t.getLeftMostLeafPage fuel).map fun leafId => ⟨leafId, leafId, 0⟩

/-- `Begin(key)`: the slot `KeyIndex(key)` of the leaf `key` belongs in. -/
def beginAt (t : BPlusTree V) (key : Int) (fuel : Nat) : Option IndexIterator :=
  if t.isEmpty then none
  else do
    let leafId ← t.getLeafPage key fuel
    let leaf ← t.leafAt leafId
    pure ⟨leafId, leafId, leaf.keyIndex key⟩

/-- `End()`: the slot after the last pair of the rightmost leaf. -/
def «end» (t : BPlusTree V) (fuel : Nat) : Option IndexIterator :=
  if t.isEmpty then none
  else do
    let leafId ← t.getRightMostLeafPage fuel
    let leaf ← t.leafAt leafId
    pure ⟨leafId, leafId, leaf.header.size⟩

/-- `operator++()`: from the last slot of a leaf with a next leaf to slot 0 of that leaf, moving
`page_` but not `page_id_`; otherwise one slot on.  `index_ == GetSize() - 1` over `int` is
written `index + 1 = size`. -/
def next (t : BPlusTree V) (it : IndexIterator) : Option IndexIterator := do
  let leaf ← t.leafAt it.page
  if it.index + 1 = leaf.header.size ∧ leaf.nextPageId ≠ invalidPageId then
    let _ ← t.leafAt leaf.nextPageId
    pure { it with page := leaf.nextPageId, index := 0 }
  else pure { it with index := it.index + 1 }

/-- `n` applications of `operator++()`. -/
def nextN (t : BPlusTree V) : Nat → IndexIterator → Option IndexIterator
  | 0, it => some it
  | n + 1, it => t.next it >>= t.nextN n

/-- `operator*()`: `GetItem(index_)` of the leaf `page_`. -/
def deref (t : BPlusTree V) (it : IndexIterator) : Option (Int × V) :=
  (t.leafAt it.page).map fun leaf => Slots.read leaf.array it.index

/-- `IsEnd()`: the slot after the last pair of a leaf with no next leaf.  It reads the leaf
`page_`, not `page_id_`. -/
def isEnd (t : BPlusTree V) (it : IndexIterator) : Option Bool :=
  (t.leafAt it.page).map fun leaf =>
    leaf.header.size == it.index && leaf.nextPageId == invalidPageId

/-- `operator==(itr)`: the same `page_id_` and `index_`. -/
def IndexIterator.equals (it itr : IndexIterator) : Bool :=
  it.pageId == itr.pageId && it.index == itr.index

/-- The loop `for (; it != end; ++it)` reading `*it` at each step, for at most `fuel` steps: the
pairs read, or `none` when the loop has not stopped by then. -/
def scan (t : BPlusTree V) (endIt : IndexIterator) : Nat → IndexIterator → Option (List (Int × V))
  | 0, _ => none
  | fuel + 1, it =>
    if IndexIterator.equals it endIt then some []
    else do
      let leaf ← t.leafAt it.page
      let it' ← t.next it
      let rest ← t.scan endIt fuel it'
      pure (Slots.read leaf.array it.index :: rest)

omit [Inhabited V] in
/-- `operator++()` never changes `page_id_`. -/
theorem next_pageId {t : BPlusTree V} {it it' : IndexIterator} (h : t.next it = some it') :
    it'.pageId = it.pageId := by
  simp only [next, Option.bind_eq_bind, Option.bind_eq_some] at h
  obtain ⟨leaf, -, h⟩ := h
  split at h
  · obtain ⟨_, -, h⟩ := Option.bind_eq_some.mp h
    cases h
    rfl
  · cases h
    rfl

omit [Inhabited V] in
theorem nextN_pageId {t : BPlusTree V} :
    ∀ {n : Nat} {it it' : IndexIterator}, t.nextN n it = some it' → it'.pageId = it.pageId
  | 0, _, _, h => by cases h; rfl
  | n + 1, it, it', h => by
    obtain ⟨mid, hmid, hrest⟩ := Option.bind_eq_some.mp h
    exact (nextN_pageId hrest).trans (next_pageId hmid)

/-- A scan from an iterator whose `page_id_` is not that of `End()` never stops: it reads on
through every slot `operator++` reaches, and gives out only when a fetch fails. -/
theorem scan_eq_none {t : BPlusTree V} {endIt : IndexIterator} :
    ∀ (fuel : Nat) (it : IndexIterator), it.pageId ≠ endIt.pageId → t.scan endIt fuel it = none
  | 0, _, _ => rfl
  | fuel + 1, it, hne => by
    have hneq : IndexIterator.equals it endIt = false := by
      simp [IndexIterator.equals, hne]
    simp only [scan, hneq, Bool.false_eq_true, if_false, Option.bind_eq_bind]
    cases hleaf : t.leafAt it.page with
    | none => rfl
    | some leaf =>
      cases hnext : t.next it with
      | none => rfl
      | some it' =>
        simp only [Option.some_bind, scan_eq_none fuel it' ((next_pageId hnext).trans_ne hne),
          Option.none_bind]

end BPlusTree

/-- On the well-formed tree with a root over the leaves `[1, 2]` and `[3, 4]`, `leaf_max_size` 4
and `internal_max_size` 3, the scan from `Begin()` never reaches `End()`, and its fifth step
reads slot 2 of the last leaf, which holds two pairs.  On the tree over `[1, 2]` and `[5, 6]`,
`Begin(3)` starts at slot 2 of the first leaf, past its pairs, and the scan never stops. -/
theorem iterator_misses_end :
    (∃ t : BPlusTree Nat,
      t = ⟨PageStore.ofPages
        [(1, .internal ⟨⟨2, 3, invalidPageId, 1⟩, [(0, 2), (3, 3)]⟩),
          (2, .leaf ⟨⟨2, 4, 1, 2⟩, 3, [(1, 10), (2, 20)]⟩),
          (3, .leaf ⟨⟨2, 4, 1, 3⟩, invalidPageId, [(3, 30), (4, 40)]⟩)] 4,
        1, 4, 3, [1]⟩ ∧
      t.WellFormed ∧
      t.begin 2 = some ⟨2, 2, 0⟩ ∧ t.end 2 = some ⟨3, 3, 2⟩ ∧
      (∀ fuel, t.scan ⟨3, 3, 2⟩ fuel ⟨2, 2, 0⟩ = none) ∧
      t.nextN 4 ⟨2, 2, 0⟩ = some ⟨2, 3, 2⟩ ∧
      (t.leafAt 3).map (·.header.size) = some 2) ∧
    (∃ t : BPlusTree Nat,
      t = ⟨PageStore.ofPages
        [(1, .internal ⟨⟨2, 3, invalidPageId, 1⟩, [(0, 2), (5, 3)]⟩),
          (2, .leaf ⟨⟨2, 4, 1, 2⟩, 3, [(1, 10), (2, 20)]⟩),
          (3, .leaf ⟨⟨2, 4, 1, 3⟩, invalidPageId, [(5, 50), (6, 60)]⟩)] 4,
        1, 4, 3, [1]⟩ ∧
      t.WellFormed ∧
      t.beginAt 3 2 = some ⟨2, 2, 2⟩ ∧ (t.leafAt 2).map (·.header.size) = some 2 ∧
      t.end 2 = some ⟨3, 3, 2⟩ ∧
      (∀ fuel, t.scan ⟨3, 3, 2⟩ fuel ⟨2, 2, 2⟩ = none)) :=
  ⟨⟨_, rfl, ⟨2, _, rfl, by decide, by decide⟩, rfl, rfl,
      fun fuel => BPlusTree.scan_eq_none fuel _ (by decide), rfl, rfl⟩,
    ⟨_, rfl, ⟨2, _, rfl, by decide, by decide⟩, rfl, rfl, rfl,
      fun fuel => BPlusTree.scan_eq_none fuel _ (by decide)⟩⟩

end Bustub
