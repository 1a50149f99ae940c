import Bustub.Index.IndexIterator
import Bustub.Index.Lookup

/-!
# Walking the leaves with the index iterator

`operator++` and `operator*` of `IndexIterator` read the pairs of a well-formed tree in key order,
and `IsEnd()`, which looks at the leaf `page_` and not at `page_id_`, is false at each of them and
true right after the last one.  So a loop that tests `IsEnd()` reads exactly the map the tree holds,
where a loop that compares with `End()` does not stop (`scan_eq_none`).

*The leaves.*  Every leaf of a well-formed tree is in the store and holds at least one pair
(`leaves_ready`), the leaves hold the tree's pairs left to right (`Node.entries_eq_flatMap`), and
`GetLeftMostLeafPage()` reaches the first of them (`edgeLeafFrom_first`).

*The walk.*  Inside a leaf `operator++` moves one slot on (`nextN_inside`); from the last slot
it moves to slot 0 of the next leaf, or past the last pair when there is none.  Along a list of
leaves linked by `next_page_id_` this reads the leaves' pairs in order (`walk_leaves`), and from
`Begin()` the list is all the leaves of the tree (`begin_iterates`).
-/

namespace Bustub

namespace Node

variable {V : Type}

mutual

/-- The pairs under a node are the pairs of its leaves, left to right. -/
theorem entries_eq_flatMap : ∀ node : Node V, node.entries = node.leaves.flatMap (·.2.valid)
  | .leaf _ _ => by simp [entries, leaves, LeafPage.valid]
  | .internal _ _ children => entriesList_eq_flatMap_leaves children

theorem entriesList_eq_flatMap_leaves : ∀ children : List (Node V),
    entriesList children = (leavesList children).flatMap (·.2.valid)
  | [] => rfl
  | child :: children => by
    rw [entriesList, leavesList, List.flatMap_append, entries_eq_flatMap child,
      entriesList_eq_flatMap_leaves children]

end

end Node

namespace BPlusTree

variable {V : Type} [Inhabited V] {t : BPlusTree V}

/-! ## The leaves of a well-formed tree -/

/-- A leaf the iterator can walk: in the store under its id, with its first `GetSize()` slots
written and at least one pair. -/
def Ready (t : BPlusTree V) (l : Int × LeafPage V) : Prop :=
  t.leafAt l.1 = some l.2 ∧ 1 ≤ l.2.header.size ∧ l.2.header.size ≤ l.2.array.length

section Leaves

variable (hlm : 2 ≤ t.leafMaxSize) (him : 1 ≤ t.internalMaxSize)

omit [Inhabited V] in
include hlm in
/-- Every leaf under a well-formed subtree is ready for the iterator, at an id of the subtree. -/
theorem leaves_ready : ∀ {fuel : Nat} {p : Int} {node : Node V} {lo hi : Option Int}
    {parentId : Int} {isRoot : Bool}, t.unfold fuel p = some node →
    node.pagesOk t.leafMaxSize t.internalMaxSize lo hi parentId isRoot = true →
    ∀ l ∈ node.leaves, t.Ready l ∧ l.1 ∈ node.pageIds
  | 0, _, _, _, _, _, _, h, _ => by simp [unfold] at h
  | fuel + 1, p, node, lo, hi, parentId, isRoot, h, hok => by
    rcases unfold_succ_cases h with ⟨page, hpage, rfl⟩ | ⟨page, children, hpage, rfl, hlen, hchild⟩
    · -- a leaf: itself
      intro l hl
      obtain rfl : l = (p, page) := List.mem_singleton.mp hl
      obtain ⟨-, -, hmax, hsize, -, -, -, hmin⟩ := Node.pagesOk_leaf_iff.mp hok
      refine ⟨⟨by simp [leafAt, hpage], show 1 ≤ page.header.size from ?_, hsize⟩,
        List.mem_singleton_self _⟩
      cases isRoot <;> simp only [if_true, if_false, Bool.false_eq_true] at hmin <;> omega
    · -- an internal page: the leaves of its children
      intro l hl
      rw [Node.leaves, Node.leavesList_eq_flatMap, List.mem_flatMap] at hl
      obtain ⟨c, hc, hl⟩ := hl
      obtain ⟨i, hi, rfl⟩ := List.getElem_of_mem hc
      obtain ⟨hready, hmem⟩ := leaves_ready (hchild i hi) (Node.pagesOk_child hlen hok hi) l hl
      exact ⟨hready, mem_pageIds_internal hi hmem⟩

omit [Inhabited V] in
include him in
/-- `GetLeftMostLeafPage()`'s descent from a well-formed subtree reaches its first leaf. -/
theorem edgeLeafFrom_first : ∀ {fuel : Nat} {p : Int} {node : Node V} {lo hi : Option Int}
    {parentId : Int} {isRoot : Bool}, t.unfold fuel p = some node →
    node.pagesOk t.leafMaxSize t.internalMaxSize lo hi parentId isRoot = true →
    ∃ l rest, node.leaves = l :: rest ∧ t.edgeLeafFrom false fuel p = some l.1
  | 0, _, _, _, _, _, _, h, _ => by simp [unfold] at h
  | fuel + 1, p, node, lo, hi, parentId, isRoot, h, hok => by
    rcases unfold_succ_cases h with ⟨page, hpage, rfl⟩ | ⟨page, children, hpage, rfl, hlen, hchild⟩
    · exact ⟨(p, page), [], rfl, by simp [edgeLeafFrom, hpage]⟩
    · -- the first child holds the first leaf
      obtain ⟨-, -, hmax, -, -, -, hmin⟩ := ((Node.pagesOk_internal_iff hlen).mp hok).1
      have hpos : 0 < children.length := by
        rw [hlen]
        cases isRoot <;> simp only [if_true, if_false, Bool.false_eq_true] at hmin <;> omega
      obtain ⟨l, rest, hleaves, hedge⟩ :=
        edgeLeafFrom_first (hchild 0 hpos) (Node.pagesOk_child hlen hok hpos)
      obtain ⟨c, cs, rfl⟩ := List.exists_cons_of_length_pos hpos
      refine ⟨l, rest ++ cs.flatMap Node.leaves, ?_, ?_⟩
      · rw [Node.leaves, Node.leavesList_eq_flatMap, List.flatMap_cons]
        exact congrArg (· ++ _) hleaves
      · simpa [edgeLeafFrom, hpage] using hedge

end Leaves

/-! ## `operator++` -/

omit [Inhabited V] in
theorem nextN_add (t : BPlusTree V) : ∀ (a b : Nat) (it : IndexIterator),
    t.nextN (a + b) it = t.nextN a it >>= t.nextN b
  | 0, _, _ => by simp [nextN]
  | a + 1, b, it => by
    rw [Nat.add_right_comm, nextN, nextN, bind_assoc]
    congr 1
    funext x
    exact nextN_add t a b x

section Leaf

variable {pid id : Int} {leaf : LeafPage V} (hleaf : t.leafAt id = some leaf)
include hleaf

omit [Inhabited V] in
/-- Inside a leaf, `operator++` moves one slot on. -/
theorem nextN_inside : ∀ k, k < leaf.header.size → t.nextN k ⟨pid, id, 0⟩ = some ⟨pid, id, k⟩
  | 0, _ => rfl
  | k + 1, hk => by
    rw [nextN_add, nextN_inside k (by omega)]
    simp [nextN, next, hleaf, show k + 1 ≠ leaf.header.size by omega]

omit [Inhabited V] in
/-- From slot 0, `GetSize()` applications of `operator++` are the step from the last slot. -/
theorem nextN_size (hpos : 1 ≤ leaf.header.size) :
    t.nextN leaf.header.size ⟨pid, id, 0⟩ = t.next ⟨pid, id, leaf.header.size - 1⟩ := by
  obtain ⟨k, hk⟩ : ∃ k, leaf.header.size = k + 1 := ⟨_, (Nat.succ_pred_eq_of_pos hpos).symm⟩
  rw [hk, nextN_add, nextN_inside hleaf k (by omega)]
  simp [nextN]

/-- At a slot before `GetSize()`, `operator*` reads the pair there and `IsEnd()` is false. -/
theorem reads_inside (hlen : leaf.header.size ≤ leaf.array.length) {i : Nat}
    (hi : i < leaf.valid.length) :
    t.nextN i ⟨pid, id, 0⟩ = some ⟨pid, id, i⟩ ∧ t.deref ⟨pid, id, i⟩ = some leaf.valid[i] ∧
      t.isEnd ⟨pid, id, i⟩ = some false := by
  rw [leaf.length_valid hlen] at hi
  refine ⟨nextN_inside hleaf i hi, ?_, ?_⟩
  · simp [deref, hleaf, leaf.read_eq_valid (by rw [leaf.length_valid hlen]; exact hi)]
  · simp [isEnd, hleaf, Nat.ne_of_gt hi]

end Leaf

/-- Along leaves linked by `next_page_id_`, each ready, `operator++` from slot 0 of the first
reads the leaves' pairs in order, with `IsEnd()` false at each, and stops where `IsEnd()` is true
after the last. -/
theorem walk_leaves (pid : Int) : ∀ (l : Int × LeafPage V) (rest : List (Int × LeafPage V)),
    (∀ x ∈ l :: rest, t.Ready x ∧ x.1 ≠ invalidPageId) →
    Node.linked ((l :: rest).map fun x => (x.1, x.2.nextPageId)) = true →
    (∀ i (hi : i < ((l :: rest).flatMap (·.2.valid)).length), ∃ it,
      t.nextN i ⟨pid, l.1, 0⟩ = some it ∧ t.deref it = some ((l :: rest).flatMap (·.2.valid))[i] ∧
        t.isEnd it = some false) ∧
    ∃ it, t.nextN ((l :: rest).flatMap (·.2.valid)).length ⟨pid, l.1, 0⟩ = some it ∧
      t.isEnd it = some true
  | (id, leaf), rest, hready, hlinked => by
    obtain ⟨⟨hleaf, hpos, hlen⟩, -⟩ : (t.leafAt id = some leaf ∧ 1 ≤ leaf.header.size ∧
        leaf.header.size ≤ leaf.array.length) ∧ id ≠ invalidPageId :=
      hready (id, leaf) (List.mem_cons_self _ _)
    have hvlen := leaf.length_valid hlen
    simp only [List.flatMap_cons]
    -- the slots of the first leaf
    have hfirst : ∀ i (hi : i < (leaf.valid ++ rest.flatMap (·.2.valid)).length),
        i < leaf.valid.length → ∃ it, t.nextN i ⟨pid, id, 0⟩ = some it ∧
          t.deref it = some (leaf.valid ++ rest.flatMap (·.2.valid))[i] ∧
            t.isEnd it = some false := fun i _ hin => by
      obtain ⟨hstep, hread, hend⟩ := reads_inside hleaf hlen hin
      exact ⟨_, hstep, by rw [List.getElem_append_left hin]; exact hread, hend⟩
    cases rest with
    | nil =>
      -- the last leaf: its `next_page_id_` is `INVALID_PAGE_ID`
      have hnone : leaf.nextPageId = invalidPageId := by simpa [Node.linked] using hlinked
      refine ⟨fun i hi => hfirst i hi (by simpa using hi), ⟨pid, id, leaf.header.size⟩, ?_, ?_⟩
      · rw [List.flatMap_nil, List.append_nil, hvlen, nextN_size hleaf hpos]
        simp [next, hleaf, hnone, Nat.sub_add_cancel hpos]
      · simp [isEnd, hleaf, hnone]
    | cons l' rest =>
      -- `operator++` from the last slot moves to slot 0 of the next leaf
      obtain ⟨hnext, hlinked⟩ : leaf.nextPageId = l'.1 ∧
          Node.linked ((l' :: rest).map fun x => (x.1, x.2.nextPageId)) = true := by
        simpa [Node.linked] using hlinked
      obtain ⟨⟨hnextLeaf, -⟩, hnextId⟩ := hready l' (List.mem_cons_of_mem _ (List.mem_cons_self _ _))
      have hstep : t.nextN leaf.valid.length ⟨pid, id, 0⟩ = some ⟨pid, l'.1, 0⟩ := by
        rw [hvlen, nextN_size hleaf hpos]
        simp [next, hleaf, hnext, hnextLeaf, hnextId, Nat.sub_add_cancel hpos]
      obtain ⟨hwalk, it, hend, hisEnd⟩ :=
        walk_leaves pid l' rest (fun x hx => hready x (List.mem_cons_of_mem _ hx)) hlinked
      refine ⟨fun i hi => ?_, it, by rw [List.length_append, nextN_add, hstep]; exact hend, hisEnd⟩
      by_cases hin : i < leaf.valid.length
      · exact hfirst i hi hin
      · obtain ⟨j, rfl⟩ := Nat.exists_eq_add_of_le (Nat.le_of_not_lt hin)
        have hj : j < ((l' :: rest).flatMap (·.2.valid)).length := by
          rw [List.length_append] at hi
          omega
        obtain ⟨it, hnextN, hread, hisEnd⟩ := hwalk j hj
        refine ⟨it, by rw [nextN_add, hstep]; exact hnextN, ?_, hisEnd⟩
        rw [List.getElem_append_right (Nat.le_add_right _ _)]
        simpa using hread

/-- From `Begin()`, on a tree that holds a map, `operator++` applied `i` times reaches the slot
where `operator*` reads the map's `i`-th pair, in key order, and `IsEnd()` is false there; after
as many applications as the map has pairs `IsEnd()` is true.  On the empty tree `Begin()` gives
no leaf. -/
theorem begin_iterates (hlm : 2 ≤ t.leafMaxSize) (him : 1 ≤ t.internalMaxSize) {fuel : Nat}
    {pairs : List (Int × V)} (h : t.Holds fuel pairs) {F : Nat} (hF : fuel ≤ F) :
    pairs = [] ∧ t.begin F = none ∨
      ∃ it0, t.begin F = some it0 ∧
        (∀ i (hi : i < pairs.length), ∃ it, t.nextN i it0 = some it ∧
          t.deref it = some pairs[i] ∧ t.isEnd it = some false) ∧
        ∃ it, t.nextN pairs.length it0 = some it ∧ t.isEnd it = some true := by
  rcases h with ⟨hempty, rfl⟩ | ⟨N, hw, rfl⟩
  · exact .inl ⟨rfl, by simp [«begin», hempty]⟩
  have hN : t.unfold F t.rootPageId = some N := by
    rw [← Nat.add_sub_of_le hF]
    exact unfold_add hw.unfold _
  obtain ⟨l, rest, hleaves, hedge⟩ := edgeLeafFrom_first him hN hw.pagesOk
  have hready := leaves_ready hlm hN hw.pagesOk
  have hlinked := hw.chain
  rw [Node.leafChainOk_eq_linked, Node.chain, hleaves] at hlinked
  obtain ⟨hwalk, hend⟩ := walk_leaves l.1 l rest (fun x hx => by
    rw [← hleaves] at hx
    exact ⟨(hready x hx).1, (hw.ids _ (hready x hx).2).1⟩) hlinked
  rw [← hleaves, ← Node.entries_eq_flatMap] at hwalk hend
  exact .inr ⟨_, by simp [«begin», hw.isEmpty_eq_false, getLeftMostLeafPage, hedge], hwalk, hend⟩

/-- On the tree with a root over the leaves `[1, 2]` and `[3, 4]`, on which a loop comparing with
`End()` never stops (`iterator_misses_end`), the walk from `Begin()` reads the four pairs in order
and `IsEnd()` ends it. -/
theorem begin_iterates_twoLeaves :
    ∃ t : BPlusTree Nat, t = ⟨PageStore.ofPages
        [(1, .internal ⟨⟨2, 3, invalidPageId, 1⟩, [(0, 2), (3, 3)]⟩),
          (2, .leaf ⟨⟨2, 4, 1, 2⟩, 3, [(1, 10), (2, 20)]⟩),
          (3, .leaf ⟨⟨2, 4, 1, 3⟩, invalidPageId, [(3, 30), (4, 40)]⟩)] 4, 1, 4, 3, [1]⟩ ∧
      ((([(1, 10), (2, 20), (3, 30), (4, 40)] : List (Int × Nat)) = [] ∧ t.begin 2 = none) ∨
        ∃ it0, t.begin 2 = some it0 ∧
          (∀ i (hi : i < ([(1, 10), (2, 20), (3, 30), (4, 40)] : List (Int × Nat)).length),
            ∃ it, t.nextN i it0 = some it ∧
              t.deref it = some ([(1, 10), (2, 20), (3, 30), (4, 40)] : List (Int × Nat))[i] ∧
              t.isEnd it = some false) ∧
          ∃ it, t.nextN 4 it0 = some it ∧ t.isEnd it = some true) := by
  refine ⟨_, rfl, begin_iterates (by decide) (by decide) ?_ (Nat.le_refl 2)⟩
  exact .inr ⟨_, ⟨rfl, by decide, by decide, by decide, by decide⟩, rfl⟩

end BPlusTree

end Bustub
