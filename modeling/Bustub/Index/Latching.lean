import Bustub.Index.Insert
import Bustub.Index.Remove
import Bustub.Index.Subtree

/-!
# Pins and latches of `GetValue` and `Remove`

The tree model computes the pages a call reads and writes.  It leaves out what the call holds
while it runs: the pin count that `FetchPage` raises and `UnpinPage` lowers, the latches on the
pages and on `root_latch_`, and the transaction's page set.  This module adds them for `GetValue`
and `Remove`.  What a call does to them is a list of `LatchEvent`s, computed beside the tree model
from the same pages (`getValueEvents`, `removeEvents`), and `Latches.run` plays the list on a
state.
`UnpinPage` of a page whose pin count is zero does nothing, so a count never goes below zero; the
model lets an unlatch of a latch nobody holds do nothing as well.

The first pass of `GetLeafPage` takes a pin and a read latch on each page and gives back those of
the page above (`descentEvents_search`), so `GetValue` on a well-formed tree gives back all it
takes (`getValueEvents_restores`).  It unpins the leaf by the `page_id_` in the leaf's header,
which on a well-formed tree is the leaf's own.

`Remove` unpins by a header's `page_id_` in more places: the sibling and the parent after
`Redistribute`, and each child that the internal pages' `CopyNFrom`, `CopyLastFrom` and
`CopyFirstFrom` move.  Those unpins name the page fetched only where its header names the page
itself, which holds of every page `NewPage` allocated and the tree initialised.

*The latch order.*  `CoalesceOrRedistribute` write-latches the sibling of an underfull page
while the page stays write latched in the transaction's page set, and that sibling is the one to
the left unless the page is its parent's first child.  So `Remove` asks for a latch to the left of
one it holds, at the same depth (`remove_latches_left_sibling`), the order in which an iterator
that moves right takes them.

`DeletePage` of the pages a call deletes changes no pin count and is left out.
`HEADER_PAGE_ID`, the page `UpdateRootPageId` fetches, is defined in a header that is not among
the sources, so it is a parameter, `headerPageId`.
-/

namespace Bustub

/-- A call on the buffer pool, on a page's latch, on `root_latch_` or on the transaction's page
set.  In the page set `none` is the `nullptr` that stands for `root_latch_`. -/
inductive LatchEvent
  | fetchPage (pageId : Int)
  | unpinPage (pageId : Int)
  | rLatch (pageId : Int)
  | rUnlatch (pageId : Int)
  | wLatch (pageId : Int)
  | wUnlatch (pageId : Int)
  | rLockRoot
  | rUnlockRoot
  | wLockRoot
  | wUnlockRoot
  | addIntoPageSet (pageId : Option Int)
  | releaseWLatches
  deriving DecidableEq, Repr

/-- The pin count of each page, the read and write latches held on each page and on
`root_latch_`, and the transaction's page set. -/
@[ext]
structure Latches where
  pins : Int → Nat
  readLatches : Int → Nat
  writeLatches : Int → Nat
  rootReaders : Nat
  rootWriters : Nat
  pageSet : List (Option Int)

namespace Latches

/-- Nothing pinned or latched, and an empty page set. -/
def idle : Latches := ⟨fun _ => 0, fun _ => 0, fun _ => 0, 0, 0, []⟩

/-- One more at `pageId`. -/
def up (count : Int → Nat) (pageId : Int) : Int → Nat :=
  Function.update count pageId (count pageId + 1)

/-- One fewer at `pageId`, and none fewer than zero. -/
def down (count : Int → Nat) (pageId : Int) : Int → Nat :=
  Function.update count pageId (count pageId - 1)

@[simp] theorem up_apply (count : Int → Nat) (pageId q : Int) :
    up count pageId q = count q + if pageId = q then 1 else 0 := by
  by_cases hq : pageId = q
  · subst hq
    simp [up]
  · simp [up, Function.update_apply, hq, Ne.symm hq]

@[simp] theorem down_apply (count : Int → Nat) (pageId q : Int) :
    down count pageId q = count q - if pageId = q then 1 else 0 := by
  by_cases hq : pageId = q
  · subst hq
    simp [down]
  · simp [down, Function.update_apply, hq, Ne.symm hq]

/-- One turn of the loop of `ReleaseWLatches(transaction, is_dirty)`: `root_latch_.WUnlock()`
for `nullptr`, else `page->WUnlatch()` and `UnpinPage(page->GetPageId(), is_dirty)`. -/
def release (h : Latches) : Option Int → Latches
  | none => { h with rootWriters := h.rootWriters - 1 }
  | some pageId => { h with writeLatches := down h.writeLatches pageId, pins := down h.pins pageId }

/-- The state after one event.  `ReleaseWLatches` empties the page set front first. -/
def step (h : Latches) : LatchEvent → Latches
  | .fetchPage pageId => { h with pins := up h.pins pageId }
  | .unpinPage pageId => { h with pins := down h.pins pageId }
  | .rLatch pageId => { h with readLatches := up h.readLatches pageId }
  | .rUnlatch pageId => { h with readLatches := down h.readLatches pageId }
  | .wLatch pageId => { h with writeLatches := up h.writeLatches pageId }
  | .wUnlatch pageId => { h with writeLatches := down h.writeLatches pageId }
  | .rLockRoot => { h with rootReaders := h.rootReaders + 1 }
  | .rUnlockRoot => { h with rootReaders := h.rootReaders - 1 }
  | .wLockRoot => { h with rootWriters := h.rootWriters + 1 }
  | .wUnlockRoot => { h with rootWriters := h.rootWriters - 1 }
  | .addIntoPageSet pageId => { h with pageSet := h.pageSet ++ [pageId] }
  | .releaseWLatches => h.pageSet.foldl release { h with pageSet := [] }

/-- The state after the events, first to last. -/
def run (h : Latches) (events : List LatchEvent) : Latches := events.foldl step h

@[simp] theorem run_nil (h : Latches) : h.run [] = h := rfl

@[simp] theorem run_cons (h : Latches) (event : LatchEvent) (events : List LatchEvent) :
    h.run (event :: events) = (h.step event).run events := rfl

@[simp] theorem run_append (h : Latches) (events events' : List LatchEvent) :
    h.run (events ++ events') = (h.run events).run events' := List.foldl_append _ _ _ _

/-! ### The first pass of a read -/

/-- One if `pre` is the page `q`. -/
def mark (pre : Option Int) (q : Int) : Nat := if pre = some q then 1 else 0

/-- What the first pass holds of the page above the one it fetches: a pin and a read latch, or a
read lock of `root_latch_` at the root. -/
def Holds (h : Latches) : Option Int → Prop
  | some pre => 1 ≤ h.pins pre ∧ 1 ≤ h.readLatches pre
  | none => 1 ≤ h.rootReaders

/-- `h'` is `h` with what it held of `pre` given back and a pin and a read latch taken on
`pageId`. -/
structure ReadMoved (h h' : Latches) (pre : Option Int) (pageId : Int) : Prop where
  pins : ∀ q, h'.pins q + mark pre q = h.pins q + mark (some pageId) q
  readLatches : ∀ q, h'.readLatches q + mark pre q = h.readLatches q + mark (some pageId) q
  rootReaders : h'.rootReaders + (if pre = none then 1 else 0) = h.rootReaders
  writeLatches : h'.writeLatches = h.writeLatches
  rootWriters : h'.rootWriters = h.rootWriters
  pageSet : h'.pageSet = h.pageSet

theorem ReadMoved.trans {h h₁ h₂ : Latches} {pre : Option Int} {pageId leafId : Int}
    (h₁₂ : ReadMoved h h₁ pre pageId) (h₂₃ : ReadMoved h₁ h₂ (some pageId) leafId) :
    ReadMoved h h₂ pre leafId where
  pins q := by have := h₁₂.pins q; have := h₂₃.pins q; omega
  readLatches q := by have := h₁₂.readLatches q; have := h₂₃.readLatches q; omega
  rootReaders := by have := h₁₂.rootReaders; have := h₂₃.rootReaders; simp_all
  writeLatches := h₂₃.writeLatches.trans h₁₂.writeLatches
  rootWriters := h₂₃.rootWriters.trans h₁₂.rootWriters
  pageSet := h₂₃.pageSet.trans h₁₂.pageSet

/-- After the move the pass holds the page it moved to. -/
theorem ReadMoved.holds {h h' : Latches} {pre : Option Int} {pageId : Int}
    (hm : ReadMoved h h' pre pageId) (hold : h.Holds pre) : h'.Holds (some pageId) := by
  have hp := hm.pins pageId
  have hr := hm.readLatches pageId
  by_cases hpre : pre = some pageId
  · subst hpre
    simp only [Holds, mark, if_true] at hold hp hr ⊢
    omega
  · simp only [mark, hpre, if_true, if_false] at hp hr
    exact ⟨by omega, by omega⟩

end Latches

/-- `pre_page->RUnlatch()` and `UnpinPage(pre_page->GetPageId())`, or `root_latch_.RUnlock()` at
the root: the first pass lets go of the page above. -/
def releasePrePage : Option Int → List LatchEvent
  | some pre => [.rUnlatch pre, .unpinPage pre]
  | none => [.rUnlockRoot]

/-- The first pass of a read at one page: `FetchPage`, `RLatch` and the release of the page
above give back what the pass held above and hold the page. -/
theorem Latches.readMoved_fetch {h : Latches} {pre : Option Int} (hold : h.Holds pre)
    (pageId : Int) :
    Latches.ReadMoved h (h.run (.fetchPage pageId :: .rLatch pageId :: releasePrePage pre))
      pre pageId := by
  cases pre with
  | none =>
    simp only [Latches.Holds] at hold
    exact ⟨fun q => by simp [releasePrePage, Latches.step, Latches.mark],
      fun q => by simp [releasePrePage, Latches.step, Latches.mark],
      by simp [releasePrePage, Latches.step]; omega, rfl, rfl, rfl⟩
  | some pre =>
    simp only [Latches.Holds] at hold
    refine ⟨fun q => ?_, fun q => ?_, by simp [releasePrePage, Latches.step], rfl, rfl, rfl⟩ <;>
    · by_cases hq : q = pre
      · subst hq
        simp [releasePrePage, Latches.step, Latches.mark]
        split_ifs <;> omega
      · simp [releasePrePage, Latches.step, Latches.mark, hq, Ne.symm hq]

namespace BPlusTree

variable {V : Type} [Inhabited V] (headerPageId : Int)

/-! ## The events of a call -/

/-- The loop of `GetLeafPage(key, transaction, op, first_pass)` from the page `pageId`, whose
parent `prePage` the first pass holds read latched (`none` at the root, where the first pass
holds `root_latch_` read locked).  The events, and whether the first pass found the leaf unsafe
and released it to start again. -/
def descentEvents (t : BPlusTree V) (key : Int) (op : Operation) (firstPass : Bool) :
    Nat → Option Int → Int → Option (List LatchEvent × Bool)
  | 0, _, _ => none
  | fuel + 1, prePage, pageId => do
    let page ← t.pageAt pageId
    let latch : List LatchEvent :=
      if firstPass then
        (if page.isLeafPage && op != .search then [.wLatch pageId, .addIntoPageSet (some pageId)]
         else [.rLatch pageId]) ++ releasePrePage prePage
      else
        .wLatch pageId :: ((if page.isPageSafe op then [.releaseWLatches] else []) ++
          [.addIntoPageSet (some pageId)])
    match page with
    | .leaf _ =>
      if firstPass && !page.isPageSafe op then
        pure (.fetchPage pageId :: latch ++ [.releaseWLatches], true)
      else pure (.fetchPage pageId :: latch, false)
    | .internal internal =>
      let (rest, restart) ←
        t.descentEvents key op firstPass fuel (some pageId) (internal.lookupChild key)
      pure (.fetchPage pageId :: latch ++ rest, restart)

/-- `GetLeafPage(key, transaction, op, true)`: the optimistic pass, and the pessimistic one under
`root_latch_` write locked when the leaf the first one reached is not safe. -/
def getLeafPageEvents (t : BPlusTree V) (key : Int) (op : Operation) (fuel : Nat) :
    Option (List LatchEvent) := do
  let (firstPass, restart) ← t.descentEvents key op true fuel none t.rootPageId
  if restart then
    let (secondPass, _) ← t.descentEvents key op false fuel none t.rootPageId
    pure (firstPass ++ .wLockRoot :: .addIntoPageSet none :: secondPass)
  else pure firstPass

/-- `GetValue(key, result, transaction)`: `root_latch_` read locked, the first pass of
`GetLeafPage`, and the leaf read unlatched and unpinned by the id its header holds. -/
def getValueEvents (t : BPlusTree V) (key : Int) (fuel : Nat) : Option (List LatchEvent) :=
  if t.isEmpty then some [.rLockRoot, .rUnlockRoot]
  else do
    let (descent, _) ← t.descentEvents key .search true fuel none t.rootPageId
    let leafId ← t.getLeafPage key fuel
    let leaf ← t.leafAt leafId
    pure (.rLockRoot :: descent ++ [.rUnlatch leafId, .unpinPage leaf.header.pageId])

/-- `FetchPage(child)`, `SetParentPageId(page_id)` and `UnpinPage(bplus_page->GetPageId())` in
the internal pages' copies: the unpin names the page the child's header names, which
`SetParentPageId` leaves as it is. -/
def reparentEvents (t : BPlusTree V) (child : Int) : Option (List LatchEvent) := do
  let page ← t.pageAt child
  pure [.fetchPage child, .unpinPage page.header.pageId]

/-- The loop of an internal page's `CopyNFrom(items, size, bpm)`. -/
def copyNFromEvents (t : BPlusTree V) : List (Int × Int) → Option (List LatchEvent)
  | [] => some []
  | item :: items => do
    let first ← t.reparentEvents item.2
    let rest ← t.copyNFromEvents items
    pure (first ++ rest)

/-- `Redistribute(sibling_node, node, parent_page, index)`: a leaf moves a pair within itself,
and an internal page takes the sibling's first or last child through `CopyLastFrom` or
`CopyFirstFrom`. -/
def redistributeEvents (t : BPlusTree V) (siblingId nodeId : Int) (index : Nat) :
    Option (List LatchEvent) := do
  match ← t.pageAt nodeId with
  | .leaf _ => pure []
  | .internal _ =>
    let sibling ← t.internalAt siblingId
    t.reparentEvents (sibling.valueAt (if index = 0 then 0 else sibling.header.size - 1))

/-- The merge of `Coalesce`: the right page's `MoveAllTo`, which for an internal page calls
`CopyNFrom` with all its pairs. -/
def coalesceEvents (t : BPlusTree V) (rightId : Int) : Option (List LatchEvent) := do
  match ← t.pageAt rightId with
  | .leaf _ => pure []
  | .internal right => t.copyNFromEvents right.valid

/-- `AdjustRoot(root_node)`, with the header page that `UpdateRootPageId` fetches. -/
def adjustRootEvents (t : BPlusTree V) (rootId : Int) : Option (List LatchEvent) := do
  let updateRootPageId : List LatchEvent := [.fetchPage headerPageId, .unpinPage headerPageId]
  match ← t.pageAt rootId with
  | .internal root =>
    if root.header.size = 1 then
      pure (.fetchPage (root.valueAt 0) :: updateRootPageId ++ [.unpinPage (root.valueAt 0)])
    else pure []
  | .leaf root => pure (if root.header.size = 0 then updateRootPageId else [])

/-- `CoalesceOrRedistribute(node, transaction)` with `Coalesce` in it, along the same pages as
`coalesceOrRedistribute`.  After `Redistribute` it unpins the sibling and the parent by the ids
their headers hold; after `Coalesce`, by the ids of the frames it fetched. -/
def coalesceOrRedistributeEvents (t : BPlusTree V) : Nat → Int → Option (List LatchEvent)
  | 0, _ => none
  | fuel + 1, nodeId => do
    let node ← t.pageAt nodeId
    if node.isRootPage then t.adjustRootEvents headerPageId nodeId
    else if node.getMinSize ≤ node.header.size then pure []
    else
      let parentId := node.header.parentPageId
      let parent ← t.internalAt parentId
      let index := parent.valueIndex node.header.pageId
      let siblingId := parent.valueAt (if index = 0 then 1 else index - 1)
      let sibling ← t.pageAt siblingId
      let fetches : List LatchEvent :=
        [.fetchPage parentId, .fetchPage siblingId, .wLatch siblingId]
      if node.header.maxSize ≤ node.header.size + sibling.header.size then
        let moves ← t.redistributeEvents siblingId nodeId index
        let t ← t.redistribute siblingId nodeId parentId index
        let sibling ← t.pageAt siblingId
        let parent ← t.internalAt parentId
        pure (fetches ++ moves ++
          [.wUnlatch siblingId, .unpinPage sibling.header.pageId, .unpinPage parent.header.pageId])
      else
        let (parentKeyIndex, leftId, rightId) :=
          if index = 0 then (1, nodeId, siblingId) else (index, siblingId, nodeId)
        let moves ← t.coalesceEvents rightId
        let t ← t.coalesceMove leftId rightId parentId parentKeyIndex
        let above ← t.coalesceOrRedistributeEvents fuel parentId
        pure (fetches ++ moves ++ above ++
          [.wUnlatch siblingId, .unpinPage siblingId, .unpinPage parentId])

/-- `Remove(key, transaction)`: `root_latch_` read locked, the descent, the adjustment of the leaf
if it lost a pair, and `ReleaseWLatches` at the end. -/
def removeEvents (t : BPlusTree V) (key : Int) (fuel : Nat) : Option (List LatchEvent) :=
  if t.isEmpty then some [.rLockRoot, .rUnlockRoot]
  else do
    let descent ← t.getLeafPageEvents key .delete fuel
    let leafId ← t.getLeafPage key fuel
    let leaf ← t.leafAt leafId
    let (leaf', afterRemoveSize) := leaf.remove key
    if leaf.header.size = afterRemoveSize then pure (.rLockRoot :: descent ++ [.releaseWLatches])
    else
      let adjust ← (t.setLeaf leafId leaf').coalesceOrRedistributeEvents headerPageId fuel leafId
      pure (.rLockRoot :: descent ++ adjust ++ [.releaseWLatches])

/-! ## What `GetValue` holds -/

omit [Inhabited V] in
/-- The first pass of `GetLeafPage` for a read gives back what it held above `pageId` and holds
the leaf it returns, pinned and read latched once. -/
theorem descentEvents_search {t : BPlusTree V} {key : Int} :
    ∀ {fuel : Nat} {pre : Option Int} {pageId leafId : Int} {events : List LatchEvent}
      {restart : Bool},
      t.descentEvents key .search true fuel pre pageId = some (events, restart) →
      t.getLeafPageFrom key fuel pageId = some leafId →
      ∀ h : Latches, h.Holds pre → Latches.ReadMoved h (h.run events) pre leafId
  | 0, _, _, _, _, _, hev, _, _, _ => nomatch hev
  | fuel + 1, pre, pageId, leafId, events, restart, hev, hleaf, h, hold => by
    rw [descentEvents] at hev
    rw [getLeafPageFrom] at hleaf
    cases hp : t.pageAt pageId with
    | none => simp [hp] at hev
    | some page =>
      cases page with
      | leaf page =>
        simp only [hp, Option.some.injEq] at hleaf
        subst hleaf
        simp [hp] at hev
        obtain ⟨rfl, -⟩ := hev
        exact Latches.readMoved_fetch hold _
      | internal page =>
        simp only [hp] at hleaf
        simp only [hp, Option.pure_def, Option.bind_eq_bind, Option.some_bind] at hev
        simp [Option.bind_eq_some] at hev
        obtain ⟨rest, hrest, rfl⟩ := hev
        have hm := Latches.readMoved_fetch hold pageId
        simpa using hm.trans (descentEvents_search hrest hleaf _ (hm.holds hold))

omit [Inhabited V] in
/-- `GetValue` on a well-formed tree gives back every pin and latch it takes.  The first pass
unpins the pages above the leaf by the frames it fetched, and `GetValue` unpins the leaf by the id
in its header, which on a well-formed tree is the leaf's own. -/
theorem getValueEvents_restores {t : BPlusTree V} (ht : t.WellFormed) {key : Int} {fuel : Nat}
    {events : List LatchEvent} (hev : t.getValueEvents key fuel = some events) (h : Latches) :
    h.run events = h := by
  unfold getValueEvents at hev
  split at hev
  · cases hev
    ext <;> simp [Latches.step]
  · simp only [Option.pure_def, Option.bind_eq_bind, Option.bind_eq_some] at hev
    obtain ⟨⟨descent, restart⟩, hdesc, leafId, hleafId, leaf, hleaf, hev⟩ := hev
    cases Option.some.inj hev
    obtain ⟨_, _, hgood⟩ := goodAt_of_getLeafPageFrom (goodAt_root ht) (.inl rfl) hleafId
    obtain ⟨page, hpage, hid, -⟩ := hgood.header
    rw [pageAt_of_leafAt hleaf, Option.some.injEq] at hpage
    subst hpage
    have hm := descentEvents_search hdesc hleafId (h.step .rLockRoot)
      (by simp [Latches.Holds, Latches.step])
    simp only [TreePage.header_leaf] at hid
    simp only [Latches.run_cons, Latches.run_append, Latches.run_nil, hid]
    generalize (h.step .rLockRoot).run descent = h' at hm ⊢
    ext q
    · have := hm.pins q
      simp [Latches.mark, Latches.step] at this ⊢
      omega
    · have := hm.readLatches q
      simp [Latches.mark, Latches.step] at this ⊢
      omega
    · simp [Latches.step, hm.writeLatches]
    · have := hm.rootReaders
      simp [Latches.step] at this ⊢
      omega
    · simp [Latches.step, hm.rootWriters]
    · simp [Latches.step, hm.pageSet]

/-! ## A left sibling latched under the page to its right -/

/-- `Insert` of the keys 1 to 4 into a new tree with `leaf_max_size` 4 splits the leaf 1 and
leaves the root 3 over the leaves 1 and 2, in that order.  `Remove(4)` leaves leaf 2 with one
pair, and `CoalesceOrRedistribute` then asks for the write latch of leaf 1, its left sibling,
while it holds the write latch of leaf 2. -/
theorem remove_latches_left_sibling :
    ∃ (t : BPlusTree Nat) (pre post : List LatchEvent),
      (new (PageStore.ofPages [] 1) 4 4 : BPlusTree Nat).insertAll 4
          [(1, 10), (2, 20), (3, 30), (4, 40)] = some t ∧
        t.WellFormed ∧ t.rootPageId = 3 ∧
        (t.internalAt 3).map (fun root => root.valid.map Prod.snd) = some [1, 2] ∧
        (t.leafAt 1).map LeafPage.nextPageId = some 2 ∧
        t.removeEvents 0 4 4 = some (pre ++ .wLatch 1 :: post) ∧
        (Latches.idle.run pre).writeLatches 2 = 1 := by
  have h0 : (new (PageStore.ofPages [] 1) 4 4 : BPlusTree Nat).Holds 0 [] := .inl ⟨rfl, rfl⟩
  obtain ⟨t, ht, hholds, -, -⟩ := h0.insertAll (by decide) (by decide) (by decide)
    [(1, 10), (2, 20), (3, 30), (4, 40)] (F := 4) le_rfl
  -- the pages `Insert` wrote, and the events of `Remove(4)` on them, evaluated
  have hval : ((new (PageStore.ofPages [] 1) 4 4 : BPlusTree Nat).insertAll 4
        [(1, 10), (2, 20), (3, 30), (4, 40)]).map (fun t : BPlusTree Nat => (t.rootPageId,
        (t.internalAt 3).map (fun root => root.valid.map Prod.snd),
        (t.leafAt 1).map LeafPage.nextPageId, t.removeEvents 0 4 4)) =
      some (3, some [1, 2], some 2, some ([.rLockRoot, .fetchPage 3, .rLatch 3, .rUnlockRoot,
        .fetchPage 2, .wLatch 2, .addIntoPageSet (some 2), .rUnlatch 3, .unpinPage 3,
        .releaseWLatches, .wLockRoot, .addIntoPageSet none, .fetchPage 3, .wLatch 3,
        .addIntoPageSet (some 3), .fetchPage 2, .wLatch 2, .addIntoPageSet (some 2), .fetchPage 3,
        .fetchPage 1] ++ .wLatch 1 :: [.fetchPage 1, .fetchPage 0, .unpinPage 0, .unpinPage 1,
        .wUnlatch 1, .unpinPage 1, .unpinPage 3, .releaseWLatches])) := by decide
  rw [ht, Option.map_some'] at hval
  simp only [Option.some.injEq, Prod.mk.injEq] at hval
  obtain ⟨hroot, hchildren, hnext, hevents⟩ := hval
  refine ⟨t, _, _, ht, ?_, hroot, hchildren, hnext, hevents, by decide⟩
  rcases hholds with ⟨-, hnil⟩ | ⟨N, hN, -⟩
  · exact absurd hnil (by decide)
  · exact ⟨_, wellFormedIn_iff.mpr ⟨N, hN⟩⟩

end BPlusTree

end Bustub
