import Bustub.Index.Shape

/-!
# Removal

`BPlusTree::Remove` deletes the pair from its leaf and then calls `CoalesceOrRedistribute` on the
leaf.  A page below its minimum size takes a pair from a sibling (`Redistribute`) when the two
hold enough pairs together, and is merged with it otherwise (`Coalesce`), which takes a key out of
the parent and goes on with the parent.  The sibling is the right one for a first child and the
left one otherwise.  `AdjustRoot` handles a root left with one child or no pair.  The pages to
delete are collected in the transaction's deleted page set and passed to `DeletePage` at the end.

The model follows the code in three places where it departs from the intent its comments state:

* `Redistribute` of leaves casts `node`, not `sibling_node`, as the sibling leaf, so the leaf moves
  a pair from itself to itself;
* the leaf `MoveFirstToEnd` copies slot 0 through a reference read after the slots shifted;
* `Coalesce` swaps its own copies of the two page pointers when the page is a first child, so the
  merge goes the right way, but `CoalesceOrRedistribute` then returns true for the page itself,
  which now holds the merged pairs, and the caller deletes it.
-/

namespace Bustub

namespace BPlusTree

variable {V : Type} [Inhabited V]

/-- `AdjustRoot(root_node)`: an internal root with one child gives way to the child, and a leaf
root with no pair leaves the tree empty.  True when the old root is to be deleted. -/
def adjustRoot (t : BPlusTree V) (rootId : Int) : Option (Bool × BPlusTree V) := do
  match ← t.pageAt rootId with
  | .internal root =>
    if root.header.size = 1 then
      let childPageId := root.valueAt 0
      let t := { t with rootPageId := childPageId }
      let t ← t.setParentPageId childPageId invalidPageId
      pure (true, t.updateRootPageId)
    else pure (false, t)
  | .leaf root =>
    if root.header.size = 0 then
      pure (true, { t with rootPageId := invalidPageId }.updateRootPageId)
    else pure (false, t)

/-- `Redistribute(sibling_node, node, parent_page, index)`, where `index` is the slot of `node`
in its parent.  For leaves, both `leaf_page` and `sibling_leaf_page` are `node`. -/
def redistribute (t : BPlusTree V) (siblingId nodeId parentId : Int) (index : Nat) :
    Option (BPlusTree V) := do
  match ← t.pageAt nodeId with
  | .leaf _ =>
    let leafId := nodeId
    let siblingLeafId := nodeId
    if index = 0 then
      let t ← t.leafMoveFirstToEnd siblingLeafId leafId
      let key := (← t.leafAt siblingLeafId).keyAt 0
      let parent ← t.internalAt parentId
      pure (t.setInternal parentId (parent.setKeyAt 1 key))
    else
      let t ← t.leafMoveLastToFront siblingLeafId leafId
      let key := (← t.leafAt leafId).keyAt 0
      let parent ← t.internalAt parentId
      pure (t.setInternal parentId (parent.setKeyAt index key))
  | .internal _ =>
    if index = 0 then
      let middleKey := (← t.internalAt parentId).keyAt 1
      let t ← t.internalMoveFirstToEnd siblingId nodeId middleKey
      let key := (← t.internalAt siblingId).keyAt 0
      let parent ← t.internalAt parentId
      pure (t.setInternal parentId (parent.setKeyAt 1 key))
    else
      let middleKey := (← t.internalAt parentId).keyAt index
      let t ← t.internalMoveLastToFront siblingId nodeId middleKey
      let key := (← t.internalAt nodeId).keyAt 0
      let parent ← t.internalAt parentId
      pure (t.setInternal parentId (parent.setKeyAt index key))

/-- The merge of `Coalesce`: the right page `rightId` moves all its pairs to the left page
`leftId` (a leaf also hands over its `next_page_id_`), and the parent loses the slot
`parentKeyIndex`. -/
def coalesceMove (t : BPlusTree V) (leftId rightId parentId : Int) (parentKeyIndex : Nat) :
    Option (BPlusTree V) := do
  let t ← match ← t.pageAt rightId with
    | .leaf _ => do
      let t ← t.leafMoveAllTo rightId leftId
      let right ← t.leafAt rightId
      let left ← t.leafAt leftId
      pure (t.setLeaf leftId { left with nextPageId := right.nextPageId })
    | .internal _ => do
      let middleKey := (← t.internalAt parentId).keyAt parentKeyIndex
      t.internalMoveAllTo rightId leftId middleKey
  let parent ← t.internalAt parentId
  pure (t.setInternal parentId (parent.remove parentKeyIndex))

/-- `CoalesceOrRedistribute(node)`, with `Coalesce` in it: true when `node` is to be deleted.
The pages to delete further up are added to `deleted`, the transaction's deleted page set. -/
def coalesceOrRedistribute (t : BPlusTree V) :
    Nat → Int → List Int → Option (Bool × BPlusTree V × List Int)
  | 0, _, _ => none
  | fuel + 1, nodeId, deleted => do
    let node ← t.pageAt nodeId
    if node.isRootPage then
      let (shouldDeleteRoot, t) ← t.adjustRoot nodeId
      pure (shouldDeleteRoot, t, deleted)
    else if node.getMinSize ≤ node.header.size then pure (false, t, deleted)
    else
      let parentId := node.header.parentPageId
      let parent ← t.internalAt parentId
      let index := parent.valueIndex node.header.pageId
      let siblingId := parent.valueAt (if index = 0 then 1 else index - 1)
      let sibling ← t.pageAt siblingId
      if node.header.maxSize ≤ node.header.size + sibling.header.size then
        let t ← t.redistribute siblingId nodeId parentId index
        pure (false, t, deleted)
      else
        -- `Coalesce(&sibling_node, &node, &parent_internal_page, index)`, which swaps the two
        -- pointers when `index` is 0 so that the right page merges into the left one
        let (parentKeyIndex, leftId, rightId) :=
          if index = 0 then (1, nodeId, siblingId) else (index, siblingId, nodeId)
        let t ← t.coalesceMove leftId rightId parentId parentKeyIndex
        let (shouldDeleteParentPage, t, deleted) ← t.coalesceOrRedistribute fuel parentId deleted
        let deleted := if shouldDeleteParentPage then deleted.insert parentId else deleted
        pure (true, t, deleted)

/-- `Remove(key, transaction)`: the tree after the call, and the pages passed to `DeletePage`. -/
def remove (t : BPlusTree V) (key : Int) (fuel : Nat) : Option (BPlusTree V × List Int) :=
  if t.isEmpty then some (t, [])
  else do
    let leafId ← t.getLeafPage key fuel
    let leaf ← t.leafAt leafId
    let beforeRemoveSize := leaf.header.size
    let (leaf, afterRemoveSize) := leaf.remove key
    let t := t.setLeaf leafId leaf
    if beforeRemoveSize = afterRemoveSize then pure (t, [])
    else
      let (shouldDeleteLeafPage, t, deleted) ← t.coalesceOrRedistribute fuel leafId []
      let deleted := if shouldDeleteLeafPage then deleted.insert leaf.header.pageId else deleted
      pure (deleted.foldl deletePage t, deleted)

/-- `Remove` of a key that its leaf does not hold leaves the tree as it was and deletes no page. -/
theorem remove_of_absent {t : BPlusTree V} {key : Int} {fuel : Nat} {leafId : Int}
    {leaf : LeafPage V} (hempty : t.isEmpty = false) (hleafId : t.getLeafPage key fuel = some leafId)
    (hleaf : t.leafAt leafId = some leaf) (habsent : leaf.lookUp key = none) :
    t.remove key fuel = some (t, []) := by
  simp [remove, hempty, hleafId, hleaf, LeafPage.remove_of_lookUp_eq_none habsent, setLeaf,
    setPage_pageAt (pageAt_of_leafAt hleaf)]

end BPlusTree

/-- Two removals of key 1 from well-formed trees with `leaf_max_size` 6 and `internal_max_size` 3:
a root over the leaves `[1, 2, 3]` and `[4, 5, 6, 7]`, where the leaf left with two pairs takes
one from its right sibling, and a root over `[1, 2, 3]` and `[4, 5, 6]`, where it merges with it. -/
theorem remove_breaks_wellFormed_trees :
    (∃ t t' : BPlusTree Nat,
      t = ⟨PageStore.ofPages
        [(1, .internal ⟨⟨2, 3, invalidPageId, 1⟩, [(0, 2), (4, 3)]⟩),
          (2, .leaf ⟨⟨3, 6, 1, 2⟩, 3, [(1, 10), (2, 20), (3, 30)]⟩),
          (3, .leaf ⟨⟨4, 6, 1, 3⟩, invalidPageId, [(4, 40), (5, 50), (6, 60), (7, 70)]⟩)] 4,
        1, 6, 3, [1]⟩ ∧
      t.WellFormed ∧
      (t.unfold 2 t.rootPageId).map Node.entries =
        some [(1, 10), (2, 20), (3, 30), (4, 40), (5, 50), (6, 60), (7, 70)] ∧
      t.remove 1 3 = some (t', []) ∧
      (t'.unfold 2 t'.rootPageId).map Node.entries =
        some [(3, 30), (3, 30), (4, 40), (5, 50), (6, 60), (7, 70)] ∧
      ¬ t'.WellFormed) ∧
    (∃ (t t' : BPlusTree Nat) (deleted : List Int),
      t = ⟨PageStore.ofPages
        [(1, .internal ⟨⟨2, 3, invalidPageId, 1⟩, [(0, 2), (4, 3)]⟩),
          (2, .leaf ⟨⟨3, 6, 1, 2⟩, 3, [(1, 10), (2, 20), (3, 30)]⟩),
          (3, .leaf ⟨⟨3, 6, 1, 3⟩, invalidPageId, [(4, 40), (5, 50), (6, 60)]⟩)] 4,
        1, 6, 3, [1]⟩ ∧
      t.WellFormed ∧
      t.remove 1 3 = some (t', deleted) ∧
      t'.rootPageId = 2 ∧ 2 ∈ deleted ∧ t'.pageAt 2 = none ∧
      3 ∉ deleted ∧ (t'.pageAt 3).map (·.header.size) = some 0) :=
  ⟨⟨_, _, rfl, ⟨2, _, rfl, by decide, by decide⟩, rfl, rfl, rfl,
      BPlusTree.not_wellFormed_of_unfold 2 rfl (by decide)⟩,
    ⟨_, _, _, rfl, ⟨2, _, rfl, by decide, by decide⟩, rfl, rfl, by decide, rfl, by decide, rfl⟩⟩

end Bustub
