import Mathlib.Data.List.Chain
import Bustub.Index.Subtree

/-!
# Order and bounds in a well-formed tree

`Node.pagesOk` checks each page against the key bounds its parent sets.  This module states
those checks as propositions and draws from them what holds of whole subtrees.

*Pages.*  `LeafFits` and `InternalFits` are the checks `pagesOk` makes of a page itself, with
`increasing` read as `List.Pairwise (· < ·)`.  The children of an internal page are checked along
the list of their lower bounds (`InternalPage.lowerBounds`): the page's own for slot 0, its keys
after that, each child's upper bound being the next child's lower bound (`ChildrenBounded`).

*Keys.*  A subtree that passes `pagesOk` within `lo` and `hi` holds a nonempty list of pairs,
with strictly increasing keys, all within the bounds (`pagesOk_inRange`), when no page may be
empty: `leaf_max_size` at least 2 and `internal_max_size` at least 1.

*The leaf chain.*  `chainOk` reads only the leaves' ids and `next_page_id_`s (`Node.chain`), and
a leaf that splits into two linked leaves keeps it (`linked_split`).
-/

namespace Bustub

/-- The lower bound of the child in slot `i` of an internal page whose own lower bound is `lo`:
`lo` for slot 0, `KeyAt(i)` for the others. -/
def InternalPage.lowerBound (page : InternalPage) (lo : Option Int) (i : Nat) : Option Int :=
  if i = 0 then lo else some (page.keyAt i)

/-- The lower bounds of the children in the first `GetSize()` slots. -/
def InternalPage.lowerBounds (page : InternalPage) (lo : Option Int) : List (Option Int) :=
  (List.range page.header.size).map (page.lowerBound lo)

@[simp] theorem TreePage.getMinSize_leaf {V : Type} (page : LeafPage V) :
    (TreePage.leaf page).getMinSize = page.header.maxSize / 2 := rfl

@[simp] theorem TreePage.getMinSize_internal {V : Type} (page : InternalPage) :
    (TreePage.internal page : TreePage V).getMinSize = (page.header.maxSize + 1) / 2 := by
  simp only [TreePage.getMinSize, TreePage.isLeafPage, Bool.false_eq_true, if_false,
    TreePage.header_internal]
  split <;> omega

namespace Node

variable {V : Type}

/-! ## Keys -/

theorem increasing_iff_chain : ∀ l : List Int, increasing l = true ↔ l.Chain' (· < ·)
  | [] => by simp [increasing]
  | [a] => by simp [increasing]
  | a :: b :: rest => by
    simp [increasing, List.chain'_cons, increasing_iff_chain (b :: rest)]

theorem increasing_iff_pairwise (l : List Int) : increasing l = true ↔ l.Pairwise (· < ·) :=
  (increasing_iff_chain l).trans List.chain'_iff_pairwise

@[simp] theorem inBounds_iff {lo hi : Option Int} {key : Int} :
    inBounds lo hi key = true ↔ (∀ l ∈ lo, l ≤ key) ∧ ∀ h ∈ hi, key < h := by
  cases lo <;> cases hi <;> simp [inBounds]

/-- A nonempty list of pairs with strictly increasing keys, all within `lo` and `hi`. -/
def InRange (lo hi : Option Int) (pairs : List (Int × V)) : Prop :=
  pairs ≠ [] ∧ (pairs.map (·.1)).Pairwise (· < ·) ∧ ∀ x ∈ pairs, inBounds lo hi x.1 = true

/-- Two lists on either side of a key make one. -/
theorem InRange.append {lo hi : Option Int} {key : Int} {a b : List (Int × V)}
    (ha : InRange lo (some key) a) (hb : InRange (some key) hi b) : InRange lo hi (a ++ b) := by
  obtain ⟨ha0, hasort, habound⟩ := ha
  obtain ⟨hb0, hbsort, hbbound⟩ := hb
  obtain ⟨x₀, hx₀⟩ := List.exists_mem_of_ne_nil a ha0
  obtain ⟨y₀, hy₀⟩ := List.exists_mem_of_ne_nil b hb0
  simp only [inBounds_iff, Option.mem_def] at habound hbbound
  have hlt : ∀ x ∈ a, ∀ y ∈ b, x.1 < y.1 := fun x hx y hy =>
    Int.lt_of_lt_of_le ((habound x hx).2 key rfl) ((hbbound y hy).1 key rfl)
  refine ⟨by simp [ha0], ?_, ?_⟩
  · rw [List.map_append, List.pairwise_append]
    refine ⟨hasort, hbsort, ?_⟩
    simp only [List.mem_map]
    rintro _ ⟨x, hx, rfl⟩ _ ⟨y, hy, rfl⟩
    exact hlt x hx y hy
  · simp only [List.mem_append, inBounds_iff, Option.mem_def]
    rintro z (hz | hz)
    · exact ⟨(habound z hz).1, fun h hh => Int.lt_trans (hlt z hz y₀ hy₀) ((hbbound y₀ hy₀).2 h hh)⟩
    · exact ⟨fun l hl => Int.le_of_lt (Int.lt_of_le_of_lt ((habound x₀ hx₀).1 l hl) (hlt x₀ hx₀ z hz)),
        (hbbound z hz).2⟩

/-! ## Pages -/

/-- What `pagesOk` checks of a leaf. -/
def LeafFits (lm : Nat) (lo hi : Option Int) (parentId : Int) (isRoot : Bool) (pageId : Int)
    (page : LeafPage V) : Prop :=
  page.header.pageId = pageId ∧ page.header.parentPageId = parentId ∧ page.header.maxSize = lm ∧
    page.header.size ≤ page.array.length ∧ (page.valid.map (·.1)).Pairwise (· < ·) ∧
    (∀ x ∈ page.valid, inBounds lo hi x.1 = true) ∧ page.header.size < lm ∧
    (if isRoot then 1 ≤ page.header.size else page.header.maxSize / 2 ≤ page.header.size)

/-- What `pagesOk` checks of an internal page itself, apart from its children. -/
def InternalFits (im : Nat) (parentId : Int) (isRoot : Bool) (pageId : Int)
    (page : InternalPage) : Prop :=
  page.header.pageId = pageId ∧ page.header.parentPageId = parentId ∧ page.header.maxSize = im ∧
    page.header.size ≤ page.array.length ∧ ((page.valid.drop 1).map (·.1)).Pairwise (· < ·) ∧
    page.header.size ≤ im ∧
    (if isRoot then 2 ≤ page.header.size else (page.header.maxSize + 1) / 2 ≤ page.header.size)

/-- Children, each with its lower bound, pass `pagesOk` under the page `parentId`: each within
its own lower bound and the next child's, the last within `hi`. -/
def ChildrenBounded (lm im : Nat) (parentId : Int) (hi : Option Int) :
    List (Option Int × Node V) → Prop
  | [] => True
  | [(lo, c)] => c.pagesOk lm im lo hi parentId false = true
  | (lo, c) :: (lo', c') :: rest =>
    c.pagesOk lm im lo lo' parentId false = true ∧
      ChildrenBounded lm im parentId hi ((lo', c') :: rest)

theorem pagesOk_leaf_iff {lm im : Nat} {lo hi : Option Int} {parentId : Int} {isRoot : Bool}
    {pageId : Int} {page : LeafPage V} :
    (leaf pageId page).pagesOk lm im lo hi parentId isRoot = true ↔
      LeafFits lm lo hi parentId isRoot pageId page := by
  simp only [pagesOk, LeafFits, Bool.and_eq_true, beq_iff_eq, decide_eq_true_eq,
    increasing_iff_pairwise, List.all_eq_true, List.mem_map, LeafPage.valid,
    TreePage.getMinSize_leaf]
  constructor
  · rintro ⟨⟨⟨⟨⟨⟨⟨hid, hparent⟩, hmax⟩, hlen⟩, hsort⟩, hbound⟩, hlt⟩, hmin⟩
    refine ⟨hid, hparent, hmax, hlen, hsort, fun x hx => hbound _ ⟨x, hx, rfl⟩, hlt, ?_⟩
    cases isRoot <;> simp_all
  · rintro ⟨hid, hparent, hmax, hlen, hsort, hbound, hlt, hmin⟩
    refine ⟨⟨⟨⟨⟨⟨⟨hid, hparent⟩, hmax⟩, hlen⟩, hsort⟩, ?_⟩, hlt⟩, ?_⟩
    · rintro _ ⟨x, hx, rfl⟩
      exact hbound x hx
    · cases isRoot <;> simp_all

theorem childrenOk_iff {lm im : Nat} {page : InternalPage} {lo hi : Option Int} {pageId : Int} :
    ∀ {index : Nat} {children : List (Node V)}, index + children.length = page.header.size →
      (childrenOk lm im page lo hi pageId index children = true ↔
        ChildrenBounded lm im pageId hi
          (((List.range' index children.length).map (page.lowerBound lo)).zip children))
  | _, [], _ => by simp [childrenOk, ChildrenBounded]
  | index, [c], h => by
    simp only [List.length_singleton] at h
    simp [childrenOk, ChildrenBounded, InternalPage.lowerBound, h]
  | index, c :: c' :: cs, h => by
    simp only [List.length_cons] at h
    rw [childrenOk, Bool.and_eq_true, childrenOk_iff (by simp only [List.length_cons]; omega)]
    simp only [List.length_cons, List.range'_succ, List.map_cons, List.zip_cons_cons,
      ChildrenBounded, InternalPage.lowerBound]
    rw [if_neg (show index + 1 ≠ page.header.size by omega),
      if_neg (show index + 1 ≠ 0 by omega)]
    rfl

theorem pagesOk_internal_iff {lm im : Nat} {lo hi : Option Int} {parentId : Int} {isRoot : Bool}
    {pageId : Int} {page : InternalPage} {children : List (Node V)}
    (hlen : children.length = page.header.size) :
    (internal pageId page children).pagesOk lm im lo hi parentId isRoot = true ↔
      InternalFits im parentId isRoot pageId page ∧
        ChildrenBounded lm im pageId hi ((page.lowerBounds lo).zip children) := by
  rw [pagesOk, Bool.and_eq_true, childrenOk_iff (by omega), InternalPage.lowerBounds,
    List.range_eq_range', hlen]
  cases isRoot <;> simp [InternalFits, increasing_iff_pairwise, InternalPage.valid, and_assoc]

/-! ## Entries and leaves as lists -/

theorem entriesList_eq_flatMap : ∀ children : List (Node V),
    entriesList children = children.flatMap entries
  | [] => rfl
  | child :: children => by
    rw [entriesList, entriesList_eq_flatMap children, List.flatMap_cons]

theorem leavesList_eq_flatMap : ∀ children : List (Node V),
    leavesList children = children.flatMap leaves
  | [] => rfl
  | child :: children => by
    rw [leavesList, leavesList_eq_flatMap children, List.flatMap_cons]

/-- Children checked along their bounds, each holding pairs within its own bounds, hold pairs
within the first child's lower bound and `hi`. -/
theorem ChildrenBounded.inRange {lm im : Nat} {parentId : Int} {hi : Option Int} :
    ∀ {lo : Option Int} {c : Node V} {rest : List (Option Int × Node V)},
      ChildrenBounded lm im parentId hi ((lo, c) :: rest) → (∀ x ∈ rest, x.1.isSome) →
      (∀ x ∈ (lo, c) :: rest, ∀ lo' hi', x.2.pagesOk lm im lo' hi' parentId false = true →
        InRange lo' hi' x.2.entries) →
      InRange lo hi (c.entries ++ (rest.map (·.2)).flatMap entries)
  | lo, c, [], h, _, hchild => by
    simpa using hchild _ (List.mem_singleton_self _) lo hi h
  | lo, c, (lo', c') :: rest, ⟨hc, hrest⟩, hsome, hchild => by
    obtain ⟨k, rfl⟩ := Option.isSome_iff_exists.mp (hsome _ (List.mem_cons_self _ _))
    have hc' := hchild _ (List.mem_cons_self _ _) lo _ hc
    have hrest' := ChildrenBounded.inRange hrest (fun x hx => hsome x (List.mem_cons_of_mem _ hx))
      (fun x hx => hchild x (List.mem_cons_of_mem _ hx))
    simpa only [List.map_cons, List.flatMap_cons] using hc'.append hrest'

/-! ## The leaf chain -/

/-- The leaves' ids with their `next_page_id_`s, left to right: what `chainOk` reads. -/
def chain (node : Node V) : List (Int × Int) :=
  node.leaves.map fun leaf => (leaf.1, leaf.2.nextPageId)

/-- `chainOk` over the leaves' ids and `next_page_id_`s. -/
def linked : List (Int × Int) → Bool
  | [] => true
  | [(_, next)] => next == invalidPageId
  | (_, next) :: (pageId, next') :: rest => next == pageId && linked ((pageId, next') :: rest)

theorem chainOk_eq_linked : ∀ l : List (Int × LeafPage V),
    chainOk l = linked (l.map fun leaf => (leaf.1, leaf.2.nextPageId))
  | [] => rfl
  | [_] => rfl
  | _ :: y :: rest => by
    simp only [chainOk, List.map_cons, linked, chainOk_eq_linked (y :: rest)]

theorem leafChainOk_eq_linked (node : Node V) : node.leafChainOk = linked node.chain :=
  chainOk_eq_linked _

theorem linked_cons (x : Int × Int) (rest : List (Int × Int)) :
    linked (x :: rest) = match rest.head? with
      | none => x.2 == invalidPageId
      | some y => x.2 == y.1 && linked rest := by
  cases rest <;> rfl

/-- A leaf that splits into itself and a new leaf `s` after it, linked in between, leaves the
chain as good as it was. -/
theorem linked_split (l s a : Int) (Y : List (Int × Int)) :
    ∀ X : List (Int × Int), linked (X ++ (l, s) :: (s, a) :: Y) = linked (X ++ (l, a) :: Y)
  | [] => by
    rw [List.nil_append, List.nil_append, linked_cons, linked_cons, linked_cons]
    simp
  | x :: X => by
    rw [List.cons_append, List.cons_append, linked_cons, linked_cons, linked_split l s a Y X]
    cases X <;> rfl

/-! ## Setting the parent -/

/-- The tree with `parent_page_id_` of its top page set to `parentId`, as `SetParentPageId` leaves
it. -/
def withParent (parentId : Int) : Node V → Node V
  | leaf pageId page => leaf pageId { page with header := { page.header with parentPageId := parentId } }
  | internal pageId page children =>
    internal pageId { page with header := { page.header with parentPageId := parentId } } children

@[simp] theorem pageId_withParent (parentId : Int) (node : Node V) :
    (node.withParent parentId).pageId = node.pageId := by
  cases node <;> rfl

@[simp] theorem entries_withParent (parentId : Int) (node : Node V) :
    (node.withParent parentId).entries = node.entries := by
  cases node <;> rfl

@[simp] theorem pageIds_withParent (parentId : Int) (node : Node V) :
    (node.withParent parentId).pageIds = node.pageIds := by
  cases node <;> rfl

@[simp] theorem chain_withParent (parentId : Int) (node : Node V) :
    (node.withParent parentId).chain = node.chain := by
  cases node <;> rfl

theorem childrenOk_withParent {lm im : Nat} {page : InternalPage} {lo hi : Option Int}
    {pageId parentId : Int} : ∀ {index : Nat} {children : List (Node V)},
      childrenOk lm im { page with header := { page.header with parentPageId := parentId } } lo hi
        pageId index children = childrenOk lm im page lo hi pageId index children
  | _, [] => rfl
  | _, _ :: _ => by
    simp only [childrenOk, childrenOk_withParent]
    rfl

/-- A subtree keeps passing `pagesOk` under the parent its top page is set to. -/
theorem pagesOk_withParent {lm im : Nat} {lo hi : Option Int} {parentId parentId' : Int}
    {isRoot : Bool} {node : Node V} (h : node.pagesOk lm im lo hi parentId isRoot = true) :
    (node.withParent parentId').pagesOk lm im lo hi parentId' isRoot = true := by
  cases node with
  | leaf pageId page =>
    simp only [withParent, pagesOk, Bool.and_eq_true, beq_iff_eq] at h ⊢
    obtain ⟨⟨⟨⟨⟨⟨⟨hid, -⟩, rfl⟩, hlen⟩, hinc⟩, hbound⟩, hlt⟩, hmin⟩ := h
    exact ⟨⟨⟨⟨⟨⟨⟨hid, trivial⟩, rfl⟩, hlen⟩, hinc⟩, hbound⟩, hlt⟩, hmin⟩
  | internal pageId page children =>
    simp only [withParent, pagesOk, Bool.and_eq_true, beq_iff_eq, childrenOk_withParent] at h ⊢
    obtain ⟨⟨⟨⟨⟨⟨⟨hid, -⟩, rfl⟩, hlen⟩, hinc⟩, hle⟩, hmin⟩, hchildren⟩ := h
    exact ⟨⟨⟨⟨⟨⟨⟨hid, trivial⟩, rfl⟩, hlen⟩, hinc⟩, hle⟩, hmin⟩, hchildren⟩

end Node

namespace BPlusTree

variable {V : Type} {t : BPlusTree V}

/-- A subtree that passes `pagesOk` holds a nonempty list of pairs with strictly increasing keys
within its bounds. -/
theorem unfold_inRange (hlm : 2 ≤ t.leafMaxSize) (him : 1 ≤ t.internalMaxSize) :
    ∀ {fuel : Nat} {p : Int} {node : Node V} {lo hi : Option Int} {parentId : Int}
      {isRoot : Bool}, t.unfold fuel p = some node →
      node.pagesOk t.leafMaxSize t.internalMaxSize lo hi parentId isRoot = true →
      Node.InRange lo hi node.entries
  | 0, _, _, _, _, _, _, h, _ => by simp [unfold] at h
  | fuel + 1, p, node, lo, hi, parentId, isRoot, h, hok => by
    obtain ⟨page, hpage⟩ := pageAt_of_unfold h
    cases page with
    | leaf page =>
      have hleaf : t.leafAt p = some page := by simp [leafAt, hpage]
      rw [unfold_succ_leaf h hleaf] at hok ⊢
      obtain ⟨-, -, hmax, hlen, hsort, hbound, -, hmin⟩ := Node.pagesOk_leaf_iff.mp hok
      have hsize : 1 ≤ page.header.size := by
        cases isRoot <;> simp only [Bool.false_eq_true, if_false, if_true] at hmin <;> omega
      refine ⟨?_, hsort, hbound⟩
      rw [Node.entries, ← List.length_pos, List.length_take]
      omega
    | internal page =>
      have hint : t.internalAt p = some page := by simp [internalAt, hpage]
      obtain ⟨children, rfl, hlen, hchild⟩ := unfold_succ_internal h hint
      obtain ⟨⟨-, -, hmax, -, -, -, hmin⟩, hcb⟩ := (Node.pagesOk_internal_iff hlen).mp hok
      obtain ⟨n, hn⟩ : ∃ n, page.header.size = n + 1 :=
        ⟨page.header.size - 1, by cases isRoot <;> simp only [Bool.false_eq_true, if_false,
          if_true] at hmin <;> omega⟩
      obtain ⟨c, cs, rfl⟩ : ∃ c cs, children = c :: cs := by
        cases children with
        | nil => simp [hn] at hlen
        | cons c cs => exact ⟨c, cs, rfl⟩
      simp only [InternalPage.lowerBounds, hn, List.range_succ_eq_map, List.map_cons,
        List.zip_cons_cons, List.map_map] at hcb
      have hlen' : cs.length = n := by simpa [hn] using hlen
      have hsnd := List.map_snd_zip
        ((List.range n).map (page.lowerBound lo ∘ Nat.succ)) cs (by simp [hlen'])
      have h0 : page.lowerBound lo 0 = lo := rfl
      rw [h0] at hcb
      have hin := Node.ChildrenBounded.inRange hcb
        (fun x hx => by
          obtain ⟨j, -, hj⟩ := List.mem_map.mp (List.of_mem_zip hx).1
          simp [← hj, InternalPage.lowerBound])
        (fun x hx lo' hi' hx' => by
          have hmem : x.2 ∈ c :: cs := by
            rcases List.mem_cons.mp hx with rfl | hx
            · exact List.mem_cons_self _ _
            · exact List.mem_cons_of_mem _ (List.of_mem_zip hx).2
          obtain ⟨i, hi, hi'⟩ := List.mem_iff_getElem.mp hmem
          rw [← hi'] at hx' ⊢
          exact unfold_inRange hlm him (hchild i hi) hx')
      rwa [hsnd, ← List.flatMap_cons, ← Node.entriesList_eq_flatMap] at hin

end BPlusTree

end Bustub
