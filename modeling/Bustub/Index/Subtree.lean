import Mathlib.Logic.Relation
import Mathlib.Data.List.Nodup
import Bustub.Index.Shape

/-!
# The subtree under a page

The crabbing protocol reasons about subtrees: a page that is safe for an operation keeps the
operation's changes below it.  `Reaches t p q` says that `q` is `p` or a page under it, reached
through the children in the first `GetSize()` slots of internal pages.  On a page that `unfold`
reads, these are the ids of the tree it returns (`reaches_iff_mem_pageIds`), so the facts a
well-formed tree states of its unfolding hold of the store.

*Pages.*  `GoodAt t p parentId isRoot` says that the tree under `p` unfolds and passes
`pagesOk` under the parent `parentId`, with no page twice and every id given out.  The root of a
well-formed tree is good, and so is every child of a good internal page (`GoodAt.child`).

*Links.*  `InternalOk` gathers what the climbs of `Insert` and `Remove` read of an internal page:
its header, its size bounds, that each child names it as parent, that no child reaches it, and that
distinct children reach disjoint subtrees.  `Link t p c` is a step down from a good internal page
to a child; the pages `GetLeafPage` passes lie on a chain of links (`link_chain_of_mem_pathFrom`).
-/

namespace Bustub

/-! ## Page ids -/

namespace Node

variable {V : Type}

theorem pageIdsList_eq_flatMap : ∀ children : List (Node V),
    pageIdsList children = children.flatMap pageIds
  | [] => rfl
  | child :: children => by
    rw [pageIdsList, pageIdsList_eq_flatMap children, List.flatMap_cons]

theorem pageId_mem_pageIds (node : Node V) : node.pageId ∈ node.pageIds := by
  cases node <;> simp [pageId, pageIds]

end Node

namespace BPlusTree

variable {V : Type}

/-- `q` is `p` or a page under it: reached from `p` through the children in the first `GetSize()`
slots of internal pages. -/
inductive Reaches (t : BPlusTree V) : Int → Int → Prop
  | refl (p : Int) : Reaches t p p
  | child {p q : Int} {page : InternalPage} (i : Nat) :
      t.internalAt p = some page → i < page.header.size → Reaches t (page.valueAt i) q →
      Reaches t p q

variable {t : BPlusTree V}

theorem Reaches.trans {p q r : Int} (hpq : t.Reaches p q) (hqr : t.Reaches q r) : t.Reaches p r := by
  induction hpq with
  | refl => exact hqr
  | child i hp hi _ ih => exact .child i hp hi (ih hqr)

theorem Reaches.of_slot {p : Int} {page : InternalPage} (hp : t.internalAt p = some page) {i : Nat}
    (hi : i < page.header.size) : t.Reaches p (page.valueAt i) :=
  .child i hp hi (.refl _)

/-! ## What `unfold` reads -/

/-- A `mapM` that succeeds gives each element's result in place. -/
theorem map_eq_map_some_of_mapM {α β : Type} {f : α → Option β} :
    ∀ {l : List α} {bs : List β}, l.mapM f = some bs → l.map f = bs.map some
  | [], bs, h => by
    cases Option.some.inj h
    rfl
  | a :: l, bs, h => by
    simp only [List.mapM_cons, Option.bind_eq_bind, Option.bind_eq_some, Option.pure_def,
      Option.some.injEq] at h
    obtain ⟨b, hb, rest, hrest, rfl⟩ := h
    rw [List.map_cons, hb, map_eq_map_some_of_mapM hrest, List.map_cons]

/-- An internal page unfolds to the trees under the children of its first `GetSize()` slots, in
slot order. -/
theorem unfold_succ_internal {fuel : Nat} {p : Int} {node : Node V} {page : InternalPage}
    (h : t.unfold (fuel + 1) p = some node) (hp : t.internalAt p = some page) :
    ∃ children : List (Node V), node = .internal p page children ∧
      children.length = page.header.size ∧
      ∀ i (hi : i < children.length), t.unfold fuel (page.valueAt i) = some children[i] := by
  simp only [unfold, pageAt_of_internalAt hp, Option.bind_eq_bind, Option.bind_eq_some,
    Option.pure_def, Option.some.injEq] at h
  obtain ⟨children, hchildren, rfl⟩ := h
  have hmap := map_eq_map_some_of_mapM hchildren
  have hlen : children.length = page.header.size := by
    simpa using congrArg List.length hmap.symm
  refine ⟨children, rfl, hlen, fun i hi => ?_⟩
  have := congrArg (·[i]?) hmap
  simpa [List.getElem?_map, List.getElem?_range (hlen ▸ hi), hi] using this

/-- A leaf unfolds to itself. -/
theorem unfold_succ_leaf {fuel : Nat} {p : Int} {node : Node V} {page : LeafPage V}
    (h : t.unfold (fuel + 1) p = some node) (hp : t.leafAt p = some page) :
    node = .leaf p page := by
  simp only [unfold, pageAt_of_leafAt hp, Option.some.injEq] at h
  exact h.symm

theorem pageAt_of_unfold {fuel : Nat} {p : Int} {node : Node V} (h : t.unfold fuel p = some node) :
    ∃ page, t.pageAt p = some page := by
  cases fuel with
  | zero => simp [unfold] at h
  | succ fuel =>
    rw [unfold] at h
    split at h
    all_goals first | exact ⟨_, ‹_›⟩ | simp at h

/-- The pages a page reaches are the pages of the tree it unfolds to. -/
theorem reaches_iff_mem_pageIds :
    ∀ {fuel : Nat} {p : Int} {node : Node V}, t.unfold fuel p = some node →
      ∀ q, t.Reaches p q ↔ q ∈ node.pageIds
  | 0, _, _, h, _ => by simp [unfold] at h
  | fuel + 1, p, node, h, q => by
    obtain ⟨page, hpage⟩ := pageAt_of_unfold h
    cases page with
    | leaf page =>
      have hleaf : t.leafAt p = some page := by simp [leafAt, hpage]
      rw [unfold_succ_leaf h hleaf]
      constructor
      · rintro (_ | ⟨i, hp, -, -⟩)
        · simp [Node.pageIds]
        · simp [internalAt, hpage] at hp
      · intro hq
        simp only [Node.pageIds, List.mem_singleton] at hq
        exact hq ▸ .refl _
    | internal page =>
      have hint : t.internalAt p = some page := by simp [internalAt, hpage]
      obtain ⟨children, rfl, hlen, hchild⟩ := unfold_succ_internal h hint
      simp only [Node.pageIds, List.mem_cons, Node.pageIdsList_eq_flatMap, List.mem_flatMap]
      constructor
      · rintro (_ | ⟨i, hp, hi, hq⟩)
        · exact .inl rfl
        · cases Option.some.inj (hp.symm.trans hint)
          exact .inr ⟨_, List.getElem_mem (hlen ▸ hi),
            (reaches_iff_mem_pageIds (hchild i (hlen ▸ hi)) q).mp hq⟩
      · rintro (rfl | ⟨child, hmem, hq⟩)
        · exact .refl _
        · obtain ⟨i, hi, rfl⟩ := List.mem_iff_getElem.mp hmem
          exact .child i hint (hlen ▸ hi) ((reaches_iff_mem_pageIds (hchild i hi) q).mpr hq)

/-! ## Good pages -/

variable (t) in
/-- The tree under `p` unfolds and passes `pagesOk` under the parent `parentId`, within some key
bounds, with no page twice and every id one that `NewPage` has given out. -/
def GoodAt (p parentId : Int) (isRoot : Bool) : Prop :=
  ∃ fuel node lo hi, t.unfold fuel p = some node ∧
    node.pagesOk t.leafMaxSize t.internalMaxSize lo hi parentId isRoot = true ∧
    node.pageIds.Nodup ∧ ∀ q ∈ node.pageIds, q ≠ invalidPageId ∧ q < t.store.nextPageId

theorem goodAt_root (h : t.WellFormed) : t.GoodAt t.rootPageId invalidPageId true := by
  obtain ⟨fuel, node, hunfold, hok, -, hnodup, hids⟩ := h
  exact ⟨fuel, node, none, none, hunfold, hok, hnodup, hids⟩

/-- The children of a page that passes `childrenOk` pass `pagesOk` under it. -/
theorem Node.pagesOk_of_childrenOk {lm im : Nat} {page : InternalPage} {lo hi : Option Int}
    {pageId : Int} : ∀ {index : Nat} {children : List (Node V)},
      Node.childrenOk lm im page lo hi pageId index children = true → ∀ child ∈ children,
      ∃ lo hi, child.pagesOk lm im lo hi pageId false = true
  | _, [], _, _, h => nomatch h
  | _, c :: cs, hok, child, hmem => by
    simp only [Node.childrenOk, Bool.and_eq_true] at hok
    rcases List.mem_cons.mp hmem with rfl | hmem
    · exact ⟨_, _, hok.1⟩
    · exact Node.pagesOk_of_childrenOk hok.2 child hmem

/-- A page that unfolds to a tree passing `pagesOk` under `parentId` is there, with its own id and
that parent in its header. -/
theorem header_of_unfold {fuel : Nat} {p : Int} {node : Node V} {lm im : Nat} {lo hi : Option Int}
    {parentId : Int} {isRoot : Bool} (hunfold : t.unfold fuel p = some node)
    (hok : node.pagesOk lm im lo hi parentId isRoot = true) :
    ∃ page, t.pageAt p = some page ∧ page.header.pageId = p ∧
      page.header.parentPageId = parentId := by
  obtain ⟨page, hpage⟩ := pageAt_of_unfold hunfold
  refine ⟨page, hpage, ?_⟩
  cases fuel with
  | zero => simp [unfold] at hunfold
  | succ fuel =>
    cases page with
    | leaf page =>
      rw [unfold_succ_leaf hunfold (show t.leafAt p = some page by simp [leafAt, hpage])] at hok
      simp only [Node.pagesOk, Bool.and_eq_true, beq_iff_eq, and_assoc] at hok
      exact ⟨hok.1, hok.2.1⟩
    | internal page =>
      obtain ⟨children, rfl, -⟩ :=
        unfold_succ_internal hunfold (show t.internalAt p = some page by simp [internalAt, hpage])
      simp only [Node.pagesOk, Bool.and_eq_true, beq_iff_eq, and_assoc] at hok
      exact ⟨hok.1, hok.2.1⟩

namespace GoodAt

variable {p parentId : Int} {isRoot : Bool}

/-- A good page is there, with its own id and its parent in its header. -/
theorem header (h : t.GoodAt p parentId isRoot) :
    ∃ page, t.pageAt p = some page ∧ page.header.pageId = p ∧
      page.header.parentPageId = parentId := by
  obtain ⟨fuel, node, lo, hi, hunfold, hok, -⟩ := h
  exact header_of_unfold hunfold hok

/-- A good leaf has the tree's `leaf_max_size_`. -/
theorem leaf_maxSize (h : t.GoodAt p parentId isRoot) {page : LeafPage V}
    (hp : t.leafAt p = some page) : page.header.maxSize = t.leafMaxSize := by
  obtain ⟨fuel, node, lo, hi, hunfold, hok, -⟩ := h
  cases fuel with
  | zero => simp [unfold] at hunfold
  | succ fuel =>
    rw [unfold_succ_leaf hunfold hp] at hok
    simp only [Node.pagesOk, Bool.and_eq_true, beq_iff_eq, and_assoc] at hok
    exact hok.2.2.1

/-- The pages a good page reaches have ids `NewPage` has given out. -/
theorem allocated (h : t.GoodAt p parentId isRoot) {q : Int} (hq : t.Reaches p q) :
    q ≠ invalidPageId ∧ q < t.store.nextPageId := by
  obtain ⟨fuel, node, lo, hi, hunfold, -, -, hids⟩ := h
  exact hids q ((reaches_iff_mem_pageIds hunfold q).mp hq)

/-- The sizes `pagesOk` checks of a good internal page. -/
theorem internal_sizes (h : t.GoodAt p parentId isRoot) {page : InternalPage}
    (hp : t.internalAt p = some page) :
    page.header.maxSize = t.internalMaxSize ∧ page.header.size ≤ t.internalMaxSize ∧
      page.header.size ≤ page.array.length ∧
      (if isRoot then 2 ≤ page.header.size
       else (TreePage.internal page : TreePage V).getMinSize ≤ page.header.size) := by
  obtain ⟨fuel, node, lo, hi, hunfold, hok, -⟩ := h
  cases fuel with
  | zero => simp [unfold] at hunfold
  | succ fuel =>
    obtain ⟨children, rfl, -⟩ := unfold_succ_internal hunfold hp
    simp only [Node.pagesOk, Bool.and_eq_true, beq_iff_eq, decide_eq_true_eq, and_assoc] at hok
    obtain ⟨-, -, hmax, hlen, -, hsize, hmin, -⟩ := hok
    refine ⟨hmax, hsize, hlen, ?_⟩
    split <;> simpa [*] using hmin

/-- With `internal_max_size_` at least 3, a good internal page has at least two children. -/
theorem two_le_size (h3 : 3 ≤ t.internalMaxSize) (h : t.GoodAt p parentId isRoot)
    {page : InternalPage} (hp : t.internalAt p = some page) : 2 ≤ page.header.size := by
  obtain ⟨hmax, -, -, hmin⟩ := h.internal_sizes hp
  split at hmin
  · exact hmin
  · simp only [TreePage.getMinSize, TreePage.isLeafPage, TreePage.header_internal, hmax,
      Bool.false_eq_true, if_false] at hmin
    split at hmin <;> omega

/-- A good internal page has a child: the root has two, and a page below it `GetMinSize()`, at
least one once `internal_max_size_` is. -/
theorem one_le_size (h : t.GoodAt p parentId isRoot)
    (him : isRoot = true ∨ 1 ≤ t.internalMaxSize) {page : InternalPage}
    (hp : t.internalAt p = some page) : 1 ≤ page.header.size := by
  obtain ⟨hmax, -, -, hmin⟩ := h.internal_sizes hp
  split at hmin
  · omega
  · have := him.resolve_left ‹_›
    simp only [TreePage.getMinSize, TreePage.isLeafPage, TreePage.header_internal, hmax,
      Bool.false_eq_true, if_false] at hmin
    split at hmin <;> omega

/-- The child in a slot of a good internal page is good, with the page as its parent. -/
theorem child (h : t.GoodAt p parentId isRoot) {page : InternalPage}
    (hp : t.internalAt p = some page) {i : Nat} (hi : i < page.header.size) :
    t.GoodAt (page.valueAt i) p false := by
  obtain ⟨fuel, node, lo, hi', hunfold, hok, hnodup, hids⟩ := h
  cases fuel with
  | zero => simp [unfold] at hunfold
  | succ fuel =>
    obtain ⟨children, rfl, hlen, hchild⟩ := unfold_succ_internal hunfold hp
    have hic : i < children.length := hlen ▸ hi
    have hmem : children[i] ∈ children := List.getElem_mem _
    simp only [Node.pagesOk, Bool.and_eq_true] at hok
    obtain ⟨lo', hi'', hok'⟩ := Node.pagesOk_of_childrenOk hok.2 _ hmem
    simp only [Node.pageIds, List.nodup_cons, Node.pageIdsList_eq_flatMap,
      List.nodup_flatMap] at hnodup
    refine ⟨fuel, _, lo', hi'', hchild i hic, hok', hnodup.2.1 _ hmem, fun q hq => ?_⟩
    exact hids q (List.mem_cons_of_mem _ (Node.pageIdsList_eq_flatMap _ ▸
      List.mem_flatMap_of_mem hmem hq))

/-- No child of a good internal page reaches the page, and distinct slots reach disjoint
subtrees. -/
theorem tree_shaped (h : t.GoodAt p parentId isRoot) {page : InternalPage}
    (hp : t.internalAt p = some page) :
    (∀ i < page.header.size, ¬ t.Reaches (page.valueAt i) p) ∧
    ∀ i j, i < page.header.size → j < page.header.size → i ≠ j → ∀ q,
      t.Reaches (page.valueAt i) q → ¬ t.Reaches (page.valueAt j) q := by
  obtain ⟨fuel, node, lo, hi', hunfold, -, hnodup, -⟩ := h
  cases fuel with
  | zero => simp [unfold] at hunfold
  | succ fuel =>
    obtain ⟨children, rfl, hlen, hchild⟩ := unfold_succ_internal hunfold hp
    simp only [Node.pageIds, List.nodup_cons, Node.pageIdsList_eq_flatMap,
      List.nodup_flatMap, List.mem_flatMap, not_exists, not_and] at hnodup
    have hreach : ∀ i (hi : i < children.length) q,
        t.Reaches (page.valueAt i) q ↔ q ∈ children[i].pageIds :=
      fun i hi => reaches_iff_mem_pageIds (hchild i hi)
    refine ⟨fun i hi hreach' => hnodup.1 _ (List.getElem_mem (hlen ▸ hi))
      ((hreach i (hlen ▸ hi) p).mp hreach'), fun i j hi hj hij q hqi hqj => ?_⟩
    rw [← hlen] at hi hj
    have hpair := List.pairwise_iff_getElem.mp hnodup.2.2
    rcases Nat.lt_or_gt_of_ne hij with hlt | hlt
    · exact hpair i j hi hj hlt ((hreach i hi q).mp hqi) ((hreach j hj q).mp hqj)
    · exact hpair j i hj hi hlt ((hreach j hj q).mp hqj) ((hreach i hi q).mp hqi)

end GoodAt

/-! ## Links -/

/-- What the climbs of `Insert` and `Remove` read of an internal page `p` of a well-formed tree,
with `page` at it. -/
structure InternalOk (t : BPlusTree V) (p : Int) (page : InternalPage) : Prop where
  internalAt : t.internalAt p = some page
  pageId : page.header.pageId = p
  maxSize : page.header.maxSize = t.internalMaxSize
  size_le : page.header.size ≤ t.internalMaxSize
  two_le_size : 2 ≤ page.header.size
  size_le_length : page.header.size ≤ page.array.length
  /-- Each child is there and names itself and the page in its header. -/
  child : ∀ i < page.header.size, ∃ c, t.pageAt (page.valueAt i) = some c ∧
    c.header.pageId = page.valueAt i ∧ c.header.parentPageId = p
  /-- An internal child has at least two children. -/
  child_size : ∀ i < page.header.size, ∀ c, t.internalAt (page.valueAt i) = some c →
    2 ≤ c.header.size
  not_reaches : ∀ i < page.header.size, ¬ t.Reaches (page.valueAt i) p
  disjoint : ∀ i j, i < page.header.size → j < page.header.size → i ≠ j → ∀ q,
    t.Reaches (page.valueAt i) q → ¬ t.Reaches (page.valueAt j) q
  allocated : ∀ q, t.Reaches p q → q ≠ invalidPageId ∧ q < t.store.nextPageId

theorem GoodAt.internalOk (h3 : 3 ≤ t.internalMaxSize) {p parentId : Int} {isRoot : Bool}
    (h : t.GoodAt p parentId isRoot) {page : InternalPage} (hp : t.internalAt p = some page) :
    t.InternalOk p page := by
  obtain ⟨hmax, hsize, hlen, -⟩ := h.internal_sizes hp
  obtain ⟨hnot, hdisjoint⟩ := h.tree_shaped hp
  refine ⟨hp, ?_, hmax, hsize, h.two_le_size h3 hp, hlen, fun i hi => (h.child hp hi).header,
    fun i hi c hc => (h.child hp hi).two_le_size h3 hc, hnot, hdisjoint, fun q hq => h.allocated hq⟩
  obtain ⟨page', hpage', hid, -⟩ := h.header
  rw [pageAt_of_internalAt hp, Option.some.injEq] at hpage'
  subst hpage'
  exact hid

variable (t) in
/-- A step down the tree: `c` is the child in one of the first `GetSize()` slots of the internal
page `p` of a well-formed tree. -/
def Link (p c : Int) : Prop :=
  ∃ page, t.InternalOk p page ∧ ∃ i < page.header.size, page.valueAt i = c

theorem Link.reaches {p c : Int} (h : t.Link p c) : t.Reaches p c := by
  obtain ⟨page, hok, i, hi, rfl⟩ := h
  exact .of_slot hok.internalAt hi

/-- The child of a link is there and names itself and the page above it. -/
theorem Link.header {p c : Int} (h : t.Link p c) :
    ∃ page, t.pageAt c = some page ∧ page.header.pageId = c ∧ page.header.parentPageId = p := by
  obtain ⟨page, hok, i, hi, rfl⟩ := h
  exact hok.child i hi

theorem reaches_of_reflTransGen {p c : Int} (h : Relation.ReflTransGen t.Link p c) :
    t.Reaches p c := by
  induction h with
  | refl => exact .refl _
  | tail _ hlink ih => exact ih.trans hlink.reaches

/-- No link leaves a leaf: a chain of links from a leaf ends where it starts. -/
theorem eq_of_reflTransGen_link {p q : Int} {page : TreePage V} (hp : t.pageAt p = some page)
    (hleaf : page.isLeafPage = true) (h : Relation.ReflTransGen t.Link p q) : p = q := by
  rcases h.cases_head with rfl | ⟨c, ⟨page', hok, -⟩, -⟩
  · rfl
  · obtain rfl := Option.some.inj ((pageAt_of_internalAt hok.internalAt).symm.trans hp)
    simp [TreePage.isLeafPage] at hleaf

/-! ## The search path -/

variable (t) in
/-- The pages `GetLeafPage(key)` visits from `pageId` down, at most `fuel` of them. -/
def pathFrom (key : Int) : Nat → Int → List Int
  | 0, _ => []
  | fuel + 1, pageId =>
    pageId :: match t.pageAt pageId with
      | some (.internal page) => pathFrom key fuel (page.lookupChild key)
      | _ => []

variable (t) in
/-- The search path of `key`: the pages `GetLeafPage(key)` visits from the root. -/
def searchPath (key : Int) (fuel : Nat) : List Int := t.pathFrom key fuel t.rootPageId

/-- `GetLeafPage` descends from a good page to a good leaf along a chain of links. -/
theorem link_chain_of_getLeafPageFrom (h3 : 3 ≤ t.internalMaxSize) {key : Int} :
    ∀ {fuel : Nat} {p parentId : Int} {isRoot : Bool} {leafId : Int},
      t.GoodAt p parentId isRoot → t.getLeafPageFrom key fuel p = some leafId →
      Relation.ReflTransGen t.Link p leafId ∧ ∃ parentId isRoot, t.GoodAt leafId parentId isRoot
  | 0, _, _, _, _, _, h => nomatch h
  | fuel + 1, p, parentId, isRoot, leafId, hgood, h => by
    rw [getLeafPageFrom] at h
    split at h
    · cases h
      exact ⟨.refl, _, _, hgood⟩
    · rename_i page hp
      have hint : t.internalAt p = some page := by simp [internalAt, hp]
      have hok := hgood.internalOk h3 hint
      obtain ⟨i, hi, hchild⟩ := page.lookupChild_mem key (by have := hok.two_le_size; omega)
      rw [hchild] at h
      obtain ⟨hchain, hleaf⟩ := link_chain_of_getLeafPageFrom h3 (hgood.child hint hi) h
      exact ⟨.head ⟨page, hok, i, hi, rfl⟩ hchain, hleaf⟩
    · cases h

/-- A page on the search path from a good page lies on the chain of links down to the leaf that
`GetLeafPage` reaches. -/
theorem link_chain_of_mem_pathFrom (h3 : 3 ≤ t.internalMaxSize) {key P : Int} :
    ∀ {n fuel : Nat} {p parentId : Int} {isRoot : Bool} {leafId : Int},
      t.GoodAt p parentId isRoot → P ∈ t.pathFrom key n p →
      t.getLeafPageFrom key fuel p = some leafId →
      Relation.ReflTransGen t.Link P leafId ∧ ∃ parentId isRoot, t.GoodAt leafId parentId isRoot
  | 0, _, _, _, _, _, _, hP, _ => nomatch hP
  | _, 0, _, _, _, _, _, _, h => nomatch h
  | n + 1, fuel + 1, p, parentId, isRoot, leafId, hgood, hP, h => by
    rcases List.mem_cons.mp hP with rfl | hP
    · exact link_chain_of_getLeafPageFrom h3 hgood h
    · rw [getLeafPageFrom] at h
      cases hp : t.pageAt p with
      | none => simp [hp] at h
      | some page =>
        cases page with
        | leaf page => simp [hp] at hP
        | internal page =>
          simp only [hp] at hP h
          have hint : t.internalAt p = some page := by simp [internalAt, hp]
          obtain ⟨i, hi, hchild⟩ := page.lookupChild_mem key
            (by have := (hgood.internalOk h3 hint).two_le_size; omega)
          rw [hchild] at hP h
          exact link_chain_of_mem_pathFrom h3 (hgood.child hint hi) hP h

/-- `GetLeafPage` descends from a good page to a good leaf, whatever `internal_max_size_`: an
internal page it passes has a child to go to. -/
theorem goodAt_of_getLeafPageFrom {key : Int} :
    ∀ {fuel : Nat} {p parentId : Int} {isRoot : Bool} {leafId : Int},
      t.GoodAt p parentId isRoot → (isRoot = true ∨ 1 ≤ t.internalMaxSize) →
      t.getLeafPageFrom key fuel p = some leafId →
      ∃ parentId isRoot, t.GoodAt leafId parentId isRoot
  | 0, _, _, _, _, _, _, h => nomatch h
  | fuel + 1, p, parentId, isRoot, leafId, hgood, him, h => by
    rw [getLeafPageFrom] at h
    split at h
    · cases h
      exact ⟨_, _, hgood⟩
    · rename_i page hp
      have hint : t.internalAt p = some page := by simp [internalAt, hp]
      have hsize := hgood.one_le_size him hint
      obtain ⟨i, hi, hchild⟩ := page.lookupChild_mem key hsize
      rw [hchild] at h
      have him' : 1 ≤ t.internalMaxSize := le_trans hsize (hgood.internal_sizes hint).2.1
      exact goodAt_of_getLeafPageFrom (hgood.child hint hi) (.inr him') h
    · cases h

end BPlusTree

end Bustub
