import Bustub.Index.TreePage

/-!
# The B+ tree over its page store

`BPlusTree` (`storage/page/b_plus_tree_page.cpp`, which holds the tree's methods) reaches its
pages through the buffer pool by page id.  The model keeps the buffer pool as a page store, a
function from page ids to pages, with the id that `NewPage` gives next; `DeletePage` takes a page
out.  A call that fetches a page the store does not hold, or one of the wrong type, returns
`none`: on a well-formed tree and a buffer pool that never returns null, no call fetches such a
page.  Pins, latches and the transaction's page set do not change what a single thread computes,
and are left out here; `UpdateRootPageId` is kept as the list of root page ids written to the header page.

A method that moves pairs between two pages, or from a page to itself, reads and writes the store
step by step, in the order of the code, so that a reference into a page that the code holds across
a move reads what the page holds at the time of the read.

Descents (`GetLeafPage`, `GetLeftMostLeafPage`, `GetRightMostLeafPage`) and the walks up the tree
(`InsertIntoParent`) take a fuel argument, one unit per page visited.
-/

namespace Bustub

/-- The buffer pool as the tree uses it: the pages by id, and the id `NewPage` gives next. -/
structure PageStore (V : Type) where
  pages : Int → Option (TreePage V)
  nextPageId : Int

/-- `BPlusTree`: the buffer pool, `root_page_id_`, `leaf_max_size_`, `internal_max_size_`, and
the root page ids `UpdateRootPageId` wrote to the header page, latest first. -/
structure BPlusTree (V : Type) where
  store : PageStore V
  rootPageId : Int
  leafMaxSize : Nat
  internalMaxSize : Nat
  headerUpdates : List Int

/-- The buffer pool holding `pages`, whose next new page gets the id `nextPageId`. -/
def PageStore.ofPages {V : Type} (pages : List (Int × TreePage V)) (nextPageId : Int) :
    PageStore V :=
  ⟨pages.lookup, nextPageId⟩

namespace BPlusTree

variable {V : Type} [Inhabited V]

/-! ## The page store -/

/-- `FetchPage(page_id)`. -/
def pageAt (t : BPlusTree V) (pageId : Int) : Option (TreePage V) := t.store.pages pageId

/-- `FetchPage(page_id)` cast to a leaf. -/
def leafAt (t : BPlusTree V) (pageId : Int) : Option (LeafPage V) :=
  match t.pageAt pageId with
  | some (.leaf page) => some page
  | _ => none

/-- `FetchPage(page_id)` cast to an internal page. -/
def internalAt (t : BPlusTree V) (pageId : Int) : Option InternalPage :=
  match t.pageAt pageId with
  | some (.internal page) => some page
  | _ => none

/-- The store with the page `pageId` written. -/
def setPage (t : BPlusTree V) (pageId : Int) (page : TreePage V) : BPlusTree V :=
  { t with store := { t.store with pages := Function.update t.store.pages pageId (some page) } }

/-- The store with the leaf `pageId` written. -/
def setLeaf (t : BPlusTree V) (pageId : Int) (page : LeafPage V) : BPlusTree V :=
  t.setPage pageId (.leaf page)

/-- The store with the internal page `pageId` written. -/
def setInternal (t : BPlusTree V) (pageId : Int) (page : InternalPage) : BPlusTree V :=
  t.setPage pageId (.internal page)

omit [Inhabited V] in
theorem pageAt_of_leafAt {t : BPlusTree V} {pageId : Int} {page : LeafPage V}
    (h : t.leafAt pageId = some page) : t.pageAt pageId = some (.leaf page) := by
  unfold leafAt at h
  split at h <;> simp_all

omit [Inhabited V] in
theorem pageAt_of_internalAt {t : BPlusTree V} {pageId : Int} {page : InternalPage}
    (h : t.internalAt pageId = some page) : t.pageAt pageId = some (.internal page) := by
  unfold internalAt at h
  split at h <;> simp_all

omit [Inhabited V] in
/-- Writing a page back as it is leaves the store as it is. -/
theorem setPage_pageAt {t : BPlusTree V} {pageId : Int} {page : TreePage V}
    (h : t.pageAt pageId = some page) : t.setPage pageId page = t := by
  rw [pageAt] at h
  rw [setPage, ← h, Function.update_eq_self]

/-- `NewPage(&page_id)`: the id of a new, zeroed page. -/
def newPage (t : BPlusTree V) : Int × BPlusTree V :=
  (t.store.nextPageId, { t with store := { t.store with nextPageId := t.store.nextPageId + 1 } })

/-- `DeletePage(page_id)`. -/
def deletePage (t : BPlusTree V) (pageId : Int) : BPlusTree V :=
  { t with store := { t.store with pages := Function.update t.store.pages pageId none } }

/-- `FetchPage(page_id)->SetParentPageId(parent_page_id)`. -/
def setParentPageId (t : BPlusTree V) (pageId parentPageId : Int) : Option (BPlusTree V) := do
  let page ← t.pageAt pageId
  pure (t.setPage pageId (page.setParentPageId parentPageId))

/-- `UpdateRootPageId()`: the header page records `root_page_id_`. -/
def updateRootPageId (t : BPlusTree V) : BPlusTree V :=
  { t with headerUpdates := t.rootPageId :: t.headerUpdates }

/-- `IsEmpty()`. -/
def isEmpty (t : BPlusTree V) : Bool := t.rootPageId == invalidPageId

/-! ## Descents -/

/-- The loop of `GetLeafPage(key, ...)`: from page `pageId` down to the leaf that `key` belongs
in.  Both passes of the code take this path on a tree no other thread changes. -/
def getLeafPageFrom (t : BPlusTree V) (key : Int) : Nat → Int → Option Int
  | 0, _ => none
  | fuel + 1, pageId =>
    match t.pageAt pageId with
    | some (.leaf _) => some pageId
    | some (.internal page) => t.getLeafPageFrom key fuel (page.lookupChild key)
    | none => none

/-- `GetLeafPage(key, ...)`: the id of the leaf `key` belongs in. -/
def getLeafPage (t : BPlusTree V) (key : Int) (fuel : Nat) : Option Int :=
  t.getLeafPageFrom key fuel t.rootPageId

/-- The loop of `GetLeftMostLeafPage()` and `GetRightMostLeafPage()`, which take the first or
the last child. -/
def edgeLeafFrom (t : BPlusTree V) (rightmost : Bool) : Nat → Int → Option Int
  | 0, _ => none
  | fuel + 1, pageId =>
    match t.pageAt pageId with
    | some (.leaf _) => some pageId
    | some (.internal page) =>
      t.edgeLeafFrom rightmost fuel
        (page.valueAt (if rightmost then page.header.size - 1 else 0))
    | none => none

/-- `GetLeftMostLeafPage()`. -/
def getLeftMostLeafPage (t : BPlusTree V) (fuel : Nat) : Option Int :=
  t.edgeLeafFrom false fuel t.rootPageId

/-- `GetRightMostLeafPage()`. -/
def getRightMostLeafPage (t : BPlusTree V) (fuel : Nat) : Option Int :=
  t.edgeLeafFrom true fuel t.rootPageId

/-! ## Search -/

/-- `GetValue(key, result)`: the value appended to `result`, `none` when the call returns false. -/
def getValue (t : BPlusTree V) (key : Int) (fuel : Nat) : Option (Option V) :=
  if t.isEmpty then some none
  else do
    let leafId ← t.getLeafPage key fuel
    let leaf ← t.leafAt leafId
    pure (leaf.lookUp key)

/-! ## Pairs moved between pages -/

/-- `FetchPage(child)->SetParentPageId(page_id)` for each child in the slots `first` to
`first + n - 1` of the internal page `pageId`: the loop of `CopyNFrom`. -/
def reparentSlots (t : BPlusTree V) (pageId : Int) (first : Nat) : Nat → Option (BPlusTree V)
  | 0 => some t
  | n + 1 => do
    let page ← t.internalAt pageId
    let t ← t.setParentPageId (page.valueAt first) page.header.pageId
    t.reparentSlots pageId (first + 1) n

/-- `CopyNFrom(items, size, bpm)` of the internal page `pageId`: the pairs are appended, and each
child they name gets the page as its parent. -/
def internalCopyNFrom (t : BPlusTree V) (pageId : Int) (items : List (Int × Int)) :
    Option (BPlusTree V) := do
  let page ← t.internalAt pageId
  let beforeCopySize := page.header.size
  let t := t.setInternal pageId
    { page with array := Slots.copyFrom page.array beforeCopySize items }
  let t ← t.reparentSlots pageId beforeCopySize items.length
  let page ← t.internalAt pageId
  pure (t.setInternal pageId
    { page with header := { page.header with size := page.header.size + items.length } })

/-- `CopyLastFrom(item, bpm)` of an internal page. -/
def internalCopyLastFrom (t : BPlusTree V) (pageId : Int) (item : Int × Int) :
    Option (BPlusTree V) := do
  let page ← t.internalAt pageId
  let t := t.setInternal pageId
    { page with array := Slots.write page.array page.header.size item }
  let t ← t.setParentPageId item.2 page.header.pageId
  let page ← t.internalAt pageId
  pure (t.setInternal pageId { page with header := { page.header with size := page.header.size + 1 } })

/-- `CopyFirstFrom(item, bpm)` of an internal page. -/
def internalCopyFirstFrom (t : BPlusTree V) (pageId : Int) (item : Int × Int) :
    Option (BPlusTree V) := do
  let page ← t.internalAt pageId
  let shifted := Slots.moveBackward page.array 0 (page.header.size + 1) page.header.size
  let t := t.setInternal pageId { page with array := Slots.write shifted 0 item }
  let t ← t.setParentPageId item.2 page.header.pageId
  let page ← t.internalAt pageId
  pure (t.setInternal pageId { page with header := { page.header with size := page.header.size + 1 } })

/-- `MoveHalfTo(sibling)` of a leaf: the slots from `GetMinSize()` on, `GetMaxSize() -
GetMinSize()` of them, go to the end of the sibling. -/
def leafMoveHalfTo (t : BPlusTree V) (pageId siblingId : Int) : Option (BPlusTree V) := do
  let page ← t.leafAt pageId
  let minSize := (TreePage.leaf page).getMinSize
  let moveSize := page.header.maxSize - minSize
  let sibling ← t.leafAt siblingId
  let t := t.setLeaf siblingId (sibling.copyNFrom (Slots.slots page.array minSize moveSize))
  let page ← t.leafAt pageId
  pure (t.setLeaf pageId { page with header := { page.header with size := page.header.size - moveSize } })

/-- `MoveHalfTo(sibling, bpm)` of an internal page: one more slot than a leaf moves. -/
def internalMoveHalfTo (t : BPlusTree V) (pageId siblingId : Int) : Option (BPlusTree V) := do
  let page ← t.internalAt pageId
  let minSize := (TreePage.internal page : TreePage V).getMinSize
  let moveSize := page.header.maxSize - minSize + 1
  let t ← t.internalCopyNFrom siblingId (Slots.slots page.array minSize moveSize)
  let page ← t.internalAt pageId
  pure (t.setInternal pageId
    { page with header := { page.header with size := page.header.size - moveSize } })

/-- `MoveFirstToEnd(sibling)` of the leaf `pageId`: `first_item` is a reference to slot 0 of the
page, read when it is copied, after the slots have shifted over it. -/
def leafMoveFirstToEnd (t : BPlusTree V) (pageId siblingId : Int) : Option (BPlusTree V) := do
  let page ← t.leafAt pageId
  let t := t.setLeaf pageId page.removeFirst
  let firstItem := Slots.read (← t.leafAt pageId).array 0
  let sibling ← t.leafAt siblingId
  pure (t.setLeaf siblingId (sibling.copyLastFrom firstItem))

/-- `MoveLastToFront(sibling)` of the leaf `pageId`: `last_item` is a reference to the last slot
of the page, read by `CopyFirstFrom` after it has shifted the sibling's slots. -/
def leafMoveLastToFront (t : BPlusTree V) (pageId siblingId : Int) : Option (BPlusTree V) := do
  let page ← t.leafAt pageId
  let lastSlot := page.header.size - 1
  let t := t.setLeaf pageId { page with header := { page.header with size := page.header.size - 1 } }
  let sibling ← t.leafAt siblingId
  let t := t.setLeaf siblingId sibling.shiftUp
  let lastItem := Slots.read (← t.leafAt pageId).array lastSlot
  let sibling ← t.leafAt siblingId
  pure (t.setLeaf siblingId (sibling.setFirst lastItem))

/-- `MoveAllTo(sibling)` of a leaf. -/
def leafMoveAllTo (t : BPlusTree V) (pageId siblingId : Int) : Option (BPlusTree V) := do
  let page ← t.leafAt pageId
  let sibling ← t.leafAt siblingId
  let t := t.setLeaf siblingId (sibling.copyNFrom page.valid)
  let page ← t.leafAt pageId
  pure (t.setLeaf pageId { page with header := { page.header with size := 0 } })

/-- `MoveFirstToEnd(sibling, middle_key, bpm)` of an internal page: slot 0 takes `middle_key`,
and a copy of it goes to the end of the sibling. -/
def internalMoveFirstToEnd (t : BPlusTree V) (pageId siblingId : Int) (middleKey : Int) :
    Option (BPlusTree V) := do
  let page ← t.internalAt pageId
  let t := t.setInternal pageId (page.setKeyAt 0 middleKey)
  let firstItem := Slots.read (← t.internalAt pageId).array 0
  let t ← t.internalCopyLastFrom siblingId firstItem
  let page ← t.internalAt pageId
  pure (t.setInternal pageId (page.remove 0))

/-- `MoveLastToFront(sibling, middle_key, bpm)` of an internal page: slot 0 of the sibling takes
`middle_key`, and a copy of the last pair goes to the front of the sibling. -/
def internalMoveLastToFront (t : BPlusTree V) (pageId siblingId : Int) (middleKey : Int) :
    Option (BPlusTree V) := do
  let sibling ← t.internalAt siblingId
  let t := t.setInternal siblingId (sibling.setKeyAt 0 middleKey)
  let page ← t.internalAt pageId
  let lastItem := Slots.read page.array (page.header.size - 1)
  let t ← t.internalCopyFirstFrom siblingId lastItem
  let page ← t.internalAt pageId
  pure (t.setInternal pageId { page with header := { page.header with size := page.header.size - 1 } })

/-- `MoveAllTo(sibling, middle_key, bpm)` of an internal page. -/
def internalMoveAllTo (t : BPlusTree V) (pageId siblingId : Int) (middleKey : Int) :
    Option (BPlusTree V) := do
  let page ← t.internalAt pageId
  let t := t.setInternal pageId (page.setKeyAt 0 middleKey)
  let page ← t.internalAt pageId
  let t ← t.internalCopyNFrom siblingId page.valid
  let page ← t.internalAt pageId
  pure (t.setInternal pageId { page with header := { page.header with size := 0 } })

/-! ## Insertion -/

/-- `StartNewTree(key, value)`: a new leaf root holding the pair. -/
def startNewTree (t : BPlusTree V) (key : Int) (value : V) : BPlusTree V :=
  let (rootPageId, t) := t.newPage
  let t := { t with rootPageId }
  (t.setLeaf rootPageId ((LeafPage.new rootPageId invalidPageId t.leafMaxSize).insert key value).1)
    |>.updateRootPageId

/-- `Split(node)` of a leaf: a new leaf, with the node's parent, takes the upper pairs.  Returns
the new page's id. -/
def splitLeaf (t : BPlusTree V) (pageId : Int) : Option (Int × BPlusTree V) := do
  let (siblingId, t) := t.newPage
  let page ← t.leafAt pageId
  let t := t.setLeaf siblingId (LeafPage.new siblingId page.header.parentPageId t.leafMaxSize)
  let t ← t.leafMoveHalfTo pageId siblingId
  pure (siblingId, t)

/-- `Split(node)` of an internal page. -/
def splitInternal (t : BPlusTree V) (pageId : Int) : Option (Int × BPlusTree V) := do
  let (siblingId, t) := t.newPage
  let page ← t.internalAt pageId
  let t := t.setInternal siblingId
    (InternalPage.new siblingId page.header.parentPageId t.internalMaxSize)
  let t ← t.internalMoveHalfTo pageId siblingId
  pure (siblingId, t)

/-- `InsertIntoParent(left_page, key, right_page)`: a root that split gets a new root above it;
any other page's parent takes the pair, and splits in turn once it holds more than
`internal_max_size_` children. -/
def insertIntoParent (t : BPlusTree V) : Nat → Int → Int → Int → Option (BPlusTree V)
  | 0, _, _, _ => none
  | fuel + 1, leftId, key, rightId => do
    let left ← t.pageAt leftId
    let right ← t.pageAt rightId
    if left.isRootPage then
      let (rootPageId, t) := t.newPage
      let t := { t with rootPageId }
      let t := t.setInternal rootPageId
        ((InternalPage.new rootPageId invalidPageId t.internalMaxSize).populateNewRoot
          left.header.pageId key right.header.pageId)
      let t ← t.setParentPageId leftId rootPageId
      let t ← t.setParentPageId rightId rootPageId
      pure t.updateRootPageId
    else
      let parentId := left.header.parentPageId
      let parent ← t.internalAt parentId
      let (parent, afterInsertSize) := parent.insert left.header.pageId key right.header.pageId
      let t := t.setInternal parentId parent
      if afterInsertSize ≤ t.internalMaxSize then pure t
      else
        let (siblingId, t) ← t.splitInternal parentId
        let parentKey := (← t.internalAt siblingId).keyAt 0
        t.insertIntoParent fuel parentId parentKey siblingId

/-- `InsertIntoLeaf(key, value)`: false on a duplicate key; a leaf that reaches `leaf_max_size_`
splits, and the new leaf joins the `next_page_id_` chain after it. -/
def insertIntoLeaf (t : BPlusTree V) (key : Int) (value : V) (fuel : Nat) :
    Option (Bool × BPlusTree V) := do
  let leafId ← t.getLeafPage key fuel
  let leaf ← t.leafAt leafId
  let beforeInsertSize := leaf.header.size
  let (leaf, afterInsertSize) := leaf.insert key value
  let t := t.setLeaf leafId leaf
  if beforeInsertSize = afterInsertSize then pure (false, t)
  else if afterInsertSize < t.leafMaxSize then pure (true, t)
  else
    let (siblingId, t) ← t.splitLeaf leafId
    let sibling ← t.leafAt siblingId
    let leaf ← t.leafAt leafId
    let t := t.setLeaf siblingId { sibling with nextPageId := leaf.nextPageId }
    let leaf ← t.leafAt leafId
    let sibling ← t.leafAt siblingId
    let t := t.setLeaf leafId { leaf with nextPageId := sibling.header.pageId }
    let parentKey := (← t.leafAt siblingId).keyAt 0
    let t ← t.insertIntoParent fuel leafId parentKey siblingId
    pure (true, t)

/-- `Insert(key, value)`. -/
def insert (t : BPlusTree V) (key : Int) (value : V) (fuel : Nat) : Option (Bool × BPlusTree V) :=
  if t.isEmpty then some (true, t.startNewTree key value)
  else t.insertIntoLeaf key value fuel

end BPlusTree

end Bustub
