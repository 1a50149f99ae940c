import Bustub.Index.BPlusTree

/-!
# The tree a page store holds

A B+ tree is meant to be well formed and to hold a sorted map.  This module gives both a
meaning over the page store.  `unfold` reads the tree under a page id out of the store: a
leaf, or an internal page with the trees under its children, in slot order.  Its result does not
depend on the fuel once there is enough (`unfold_mono`, `unfold_unique`).

`Node.pagesOk` checks well-formedness page by page: keys strictly
increasing in every page; each child's keys within the bounds its parent's keys set; the sizes
(`GetMinSize() <= size` off the root, leaves below `leaf_max_size`, internal pages at most
`internal_max_size`, an internal root with at least two children and a leaf root with at least
one pair); and every page's `parent_page_id_` naming the page above it.  It also checks what
holds of every page the tree itself built: the header's page id is the page's own, its maximum
size is the tree's, and its first `size` slots have been written.  The pages form a tree, no page
under two parents or under itself, at ids the buffer pool has handed out (`Node.pageIds`).  `Node.leafChainOk` checks that
the `next_page_id_` chain runs through the leaves left to right.  The content of a tree is the
list of the pairs of its leaves, left to right (`Node.entries`).
-/

namespace Bustub

/-- The tree under a page: a leaf, or an internal page with the trees under its children. -/
inductive Node (V : Type)
  | leaf (pageId : Int) (page : LeafPage V)
  | internal (pageId : Int) (page : InternalPage) (children : List (Node V))

namespace Node

variable {V : Type}

/-- The id of the page at the top. -/
def pageId : Node V → Int
  | leaf pageId _ | internal pageId .. => pageId

mutual

/-- The pairs of the leaves under a node, left to right. -/
def entries : Node V → List (Int × V)
  | leaf _ page => page.array.take page.header.size
  | internal _ _ children => entriesList children

/-- The pairs under a list of nodes, left to right. -/
def entriesList : List (Node V) → List (Int × V)
  | [] => []
  | child :: children => child.entries ++ entriesList children

end

mutual

/-- The leaves under a node with their ids, left to right. -/
def leaves : Node V → List (Int × LeafPage V)
  | leaf pageId page => [(pageId, page)]
  | internal _ _ children => leavesList children

/-- The leaves under a list of nodes, left to right. -/
def leavesList : List (Node V) → List (Int × LeafPage V)
  | [] => []
  | child :: children => child.leaves ++ leavesList children

end

mutual

/-- The ids of the pages under a node, the node's own first. -/
def pageIds : Node V → List Int
  | leaf pageId _ => [pageId]
  | internal pageId _ children => pageId :: pageIdsList children

/-- The ids of the pages under a list of nodes. -/
def pageIdsList : List (Node V) → List Int
  | [] => []
  | child :: children => child.pageIds ++ pageIdsList children

end

/-- Every leaf's `next_page_id_` names the next leaf, and the last one's is `INVALID_PAGE_ID`. -/
def chainOk : List (Int × LeafPage V) → Bool
  | [] => true
  | [(_, page)] => page.nextPageId == invalidPageId
  | (_, page) :: (nextId, next) :: rest => page.nextPageId == nextId && chainOk ((nextId, next) :: rest)

/-- The `next_page_id_` chain runs through the leaves left to right. -/
def leafChainOk (node : Node V) : Bool := chainOk node.leaves

/-- The keys increase strictly. -/
def increasing : List Int → Bool
  | a :: b :: rest => decide (a < b) && increasing (b :: rest)
  | _ => true

/-- A key lies within the bounds `lo` (inclusive) and `hi` (exclusive), where given. -/
def inBounds (lo hi : Option Int) (key : Int) : Bool :=
  lo.all (· ≤ key) && hi.all (key < ·)

mutual

/-- Every page under a node is well formed, for a tree with pages of at most `leafMaxSize` and
`internalMaxSize`: the node's keys lie within `lo` and `hi`, its parent is `parentId`, and
`isRoot` says whether it is the root. -/
def pagesOk (leafMaxSize internalMaxSize : Nat) (lo hi : Option Int) (parentId : Int)
    (isRoot : Bool) : Node V → Bool
  | leaf pageId page =>
    let keys := (page.array.take page.header.size).map (·.1)
    page.header.pageId == pageId && page.header.parentPageId == parentId &&
      page.header.maxSize == leafMaxSize && decide (page.header.size ≤ page.array.length) &&
      increasing keys && keys.all (inBounds lo hi) &&
      decide (page.header.size < leafMaxSize) &&
      (if isRoot then decide (1 ≤ page.header.size)
       else decide ((TreePage.leaf page).getMinSize ≤ page.header.size))
  | internal pageId page children =>
    let keys := ((page.array.take page.header.size).drop 1).map (·.1)
    page.header.pageId == pageId && page.header.parentPageId == parentId &&
      page.header.maxSize == internalMaxSize && decide (page.header.size ≤ page.array.length) &&
      increasing keys && decide (page.header.size ≤ internalMaxSize) &&
      (if isRoot then decide (2 ≤ page.header.size)
       else decide ((TreePage.internal page : TreePage V).getMinSize ≤ page.header.size)) &&
      childrenOk leafMaxSize internalMaxSize page lo hi pageId 0 children

/-- The children of the internal page `page`, from slot `index` on, are well formed: the child in
slot `i` has keys from `KeyAt(i)` (`lo` for slot 0) up to `KeyAt(i + 1)` (`hi` for the last). -/
def childrenOk (leafMaxSize internalMaxSize : Nat) (page : InternalPage) (lo hi : Option Int)
    (pageId : Int) (index : Nat) : List (Node V) → Bool
  | [] => true
  | child :: children =>
    pagesOk leafMaxSize internalMaxSize (if index = 0 then lo else some (page.keyAt index))
        (if index + 1 = page.header.size then hi else some (page.keyAt (index + 1))) pageId false
        child &&
      childrenOk leafMaxSize internalMaxSize page lo hi pageId (index + 1) children

end

end Node

namespace BPlusTree

variable {V : Type}

/-- The tree under the page `pageId`, read out of the store with at most `fuel` levels. -/
def unfold (t : BPlusTree V) : Nat → Int → Option (Node V)
  | 0, _ => none
  | fuel + 1, pageId =>
    match t.pageAt pageId with
    | some (.leaf page) => some (.leaf pageId page)
    | some (.internal page) => do
      let children ← (List.range page.header.size).mapM fun i => t.unfold fuel (page.valueAt i)
      pure (.internal pageId page children)
    | none => none

/-- The tree is well formed, its root page unfolding in `fuel` levels.  No page appears twice in
it, and every page of it has an id that `NewPage` has given out: not `INVALID_PAGE_ID`, and below
the id it gives next. -/
def WellFormedIn (t : BPlusTree V) (fuel : Nat) : Prop :=
  ∃ node, t.unfold fuel t.rootPageId = some node ∧
    node.pagesOk t.leafMaxSize t.internalMaxSize none none invalidPageId true ∧ node.leafChainOk ∧
    node.pageIds.Nodup ∧ ∀ q ∈ node.pageIds, q ≠ invalidPageId ∧ q < t.store.nextPageId

/-- The tree is well formed. -/
def WellFormed (t : BPlusTree V) : Prop := ∃ fuel, t.WellFormedIn fuel

/-- A `mapM` that succeeds goes on succeeding, with the same results, for a function that
succeeds wherever the first one does. -/
theorem mapM_eq_some_of {α β : Type} {f g : α → Option β}
    (hfg : ∀ a b, f a = some b → g a = some b) :
    ∀ {l : List α} {bs : List β}, l.mapM f = some bs → l.mapM g = some bs
  | [], _, h => h
  | a :: l, bs, h => by
    simp only [List.mapM_cons, Option.bind_eq_bind, Option.bind_eq_some, Option.pure_def,
      Option.some.injEq] at h ⊢
    obtain ⟨b, hb, rest, hrest, rfl⟩ := h
    exact ⟨b, hfg a b hb, rest, mapM_eq_some_of hfg hrest, rfl⟩

/-- More fuel unfolds the same tree. -/
theorem unfold_mono (t : BPlusTree V) :
    ∀ (fuel : Nat) (pageId : Int) (node : Node V),
      t.unfold fuel pageId = some node → t.unfold (fuel + 1) pageId = some node
  | 0, _, _, h => by simp [unfold] at h
  | fuel + 1, pageId, node, h => by
    rw [unfold] at h ⊢
    cases hp : t.pageAt pageId with
    | none => simp [hp] at h
    | some page =>
      cases page with
      | leaf page => simpa [hp] using h
      | internal page =>
        simp only [hp, Option.bind_eq_bind, Option.bind_eq_some] at h ⊢
        obtain ⟨children, hchildren, hnode⟩ := h
        exact ⟨children, mapM_eq_some_of (fun i => unfold_mono t fuel _) hchildren, hnode⟩

/-- The tree under a page does not depend on the fuel that unfolds it. -/
theorem unfold_unique (t : BPlusTree V) {fuel fuel' : Nat} {pageId : Int} {node node' : Node V}
    (h : t.unfold fuel pageId = some node) (h' : t.unfold fuel' pageId = some node') :
    node = node' := by
  have mono : ∀ n k, t.unfold n pageId = some node → t.unfold (n + k) pageId = some node :=
    fun n k hn => by
      induction k with
      | zero => exact hn
      | succ k ih => exact unfold_mono t _ _ _ ih
  rcases Nat.le_total fuel fuel' with hle | hle
  · obtain ⟨k, rfl⟩ := Nat.exists_eq_add_of_le hle
    exact Option.some.inj ((mono fuel k h).symm.trans h')
  · obtain ⟨k, rfl⟩ := Nat.exists_eq_add_of_le hle
    have mono' : ∀ k, t.unfold (fuel' + k) pageId = some node' := fun k => by
      induction k with
      | zero => exact h'
      | succ k ih => exact unfold_mono t _ _ _ ih
    exact Option.some.inj (h.symm.trans (mono' k))

/-- A tree whose root unfolds to a tree that fails `pagesOk` is not well formed, whatever the
fuel. -/
theorem not_wellFormed_of_unfold {t : BPlusTree V} (fuel : Nat) {node : Node V}
    (h : t.unfold fuel t.rootPageId = some node)
    (hbad : node.pagesOk t.leafMaxSize t.internalMaxSize none none invalidPageId true = false) :
    ¬ t.WellFormed := by
  rintro ⟨fuel', node', h', hok, -⟩
  rw [unfold_unique t h' h, hbad] at hok
  exact Bool.false_ne_true hok

end BPlusTree

end Bustub
