import Bustub.Index.Insert
import Bustub.Index.Remove
import Bustub.Index.PageMoves

/-!
# `Remove` where the leaf keeps enough pairs

`Remove(key)` takes the pair out of the leaf `key` belongs in and calls `CoalesceOrRedistribute`
on the leaf.  The branches of `CoalesceOrRedistribute` that borrow from a sibling or merge with
it do not keep the tree well formed (`remove_breaks_wellFormed_trees`).  This module shows that
the branches that stop at once do, and that there `Remove` acts on the map the tree holds as a
map erase (`mapErase`).

*The leaf.*  `LeafPage::Remove` of a key the leaf holds shifts the pairs after it down over it
(`LeafPage.remove_of_mem`); on the pairs of the tree around the leaf this is the erase of `key`
(`mapErase_append_middle`).

*One call.*  A root leaf left with no pair is deleted by `AdjustRoot`, and the tree becomes empty
(`coalesceOrRedistribute_rootLeaf`).  A root leaf left with pairs, and a leaf that keeps at least
`GetMinSize()` pairs, stay where they are (`coalesceOrRedistribute_of_fits`), and the tree is the
old one with the leaf in place (`wellFormedAs_of_replace`).  So a `Remove` whose leaf is the root
or holds more than `GetMinSize()` pairs leaves a tree that holds the map with `key` erased, within
the same fuel, and deletes a page only when the map held `key` alone (`remove_refines`).
-/

namespace Bustub

variable {V : Type}

/-- The pairs of a map without the pair of `key`. -/
def mapErase (key : Int) (pairs : List (Int × V)) : List (Int × V) := pairs.eraseP (·.1 == key)

/-- A map erase leaves a map that lacks the key as it is. -/
theorem mapErase_of_not_mem {key : Int} {pairs : List (Int × V)}
    (h : key ∉ pairs.map (·.1)) : mapErase key pairs = pairs :=
  List.eraseP_of_forall_not fun x hx hkey =>
    h (List.mem_map.mpr ⟨x, hx, by simpa using hkey⟩)

/-- Erasing a key of the middle part, which the first part lacks, erases it there. -/
theorem mapErase_append_middle {key : Int} {A L B : List (Int × V)}
    (hA : ∀ a ∈ A, a.1 ≠ key) (hL : key ∈ L.map (·.1)) :
    mapErase key (A ++ L ++ B) = A ++ mapErase key L ++ B := by
  obtain ⟨x, hx, rfl⟩ := List.mem_map.mp hL
  rw [mapErase, List.append_assoc, List.eraseP_append_right _ fun a ha => by simpa using hA a ha,
    List.eraseP_append_left (by simp) _ hx, List.append_assoc]
  rfl

/-- Erasing the key of the pair after the pairs with other keys takes that pair out. -/
theorem mapErase_cons_middle {key : Int} {A B : List (Int × V)} {x : Int × V}
    (hA : ∀ a ∈ A, a.1 ≠ key) (hx : x.1 = key) : mapErase key (A ++ x :: B) = A ++ B := by
  rw [mapErase, List.eraseP_append_right _ fun a ha => by simpa using hA a ha,
    List.eraseP_cons_of_pos (by simpa using hx)]

/-! ## The leaf -/

namespace Slots

theorem read_drop {α : Type} [Inhabited α] (l : List α) (n j : Nat) :
    read (l.drop n) j = read l (n + j) := by
  simp only [read, List.getD_eq_getElem?_getD, List.getElem?_drop]

end Slots

namespace LeafPage

variable [Inhabited V]

/-- `Remove` leaves the leaf's link to the next leaf as it was. -/
theorem remove_nextPageId (page : LeafPage V) (key : Int) :
    (page.remove key).1.nextPageId = page.nextPageId := by
  simp only [remove]
  split <;> rfl

/-- `Remove` of a key the page holds shifts the pairs after its slot down over it. -/
theorem remove_of_mem (page : LeafPage V) {key : Int}
    (hlen : page.header.size ≤ page.array.length)
    (hsort : (page.valid.map (·.1)).Pairwise (· < ·)) (hmem : key ∈ page.valid.map (·.1)) :
    (page.remove key).2 = page.header.size - 1 ∧
      (page.remove key).1.valid =
        page.valid.take (page.keyIndex key) ++ page.valid.drop (page.keyIndex key + 1) := by
  obtain ⟨hlt, hkey⟩ := page.keyIndex_of_mem hlen hsort hmem
  have hvalid := page.length_valid hlen
  simp only [remove, show ¬ (page.keyIndex key = page.header.size ∨
    page.keyAt (page.keyIndex key) ≠ key) by omega, if_false, true_and]
  refine Slots.take_eq_of_read (n := page.header.size - 1) (Nat.le_trans (by omega)
    (Slots.le_length_moveForward _ _ _ _)) (by simp [hvalid]; omega) fun j hj => ?_
  rw [Slots.read_moveForward, Slots.read_append, List.length_take, hvalid,
    Nat.min_eq_left (Nat.le_of_lt hlt)]
  by_cases hj' : j < page.keyIndex key
  · rw [if_neg (by omega), if_pos hj', Slots.read_take hj', read_valid (by omega)]
  · rw [if_pos (by omega), if_neg hj', Slots.read_drop, read_valid (by omega)]
    congr 1
    omega

/-- `Remove` of a key the page holds erases it from the page's pairs. -/
theorem valid_remove (page : LeafPage V) {key : Int}
    (hlen : page.header.size ≤ page.array.length)
    (hsort : (page.valid.map (·.1)).Pairwise (· < ·)) (hmem : key ∈ page.valid.map (·.1)) :
    (page.remove key).1.valid = mapErase key page.valid := by
  obtain ⟨hidx, hkeyAt⟩ := page.keyIndex_of_mem hlen hsort hmem
  have hlt : page.keyIndex key < page.valid.length := by rw [page.length_valid hlen]; exact hidx
  have herase := mapErase_cons_middle (A := page.valid.take (page.keyIndex key))
    (B := page.valid.drop (page.keyIndex key + 1))
    (fun a ha => Int.ne_of_lt ((page.keyIndex_split key hsort).1 a ha))
    (show page.valid[page.keyIndex key].1 = key by rw [← page.read_eq_valid hlt]; exact hkeyAt)
  rw [← Node.eq_take_append_getElem_cons_drop hlt] at herase
  rw [(page.remove_of_mem hlen hsort hmem).2, herase]

/-- A leaf that loses a key it holds and keeps more than the least its place allows still fits
its place. -/
theorem leafFits_remove {lm : Nat} {lo hi : Option Int} {parentId : Int} {isRoot : Bool}
    {pageId : Int} {page : LeafPage V} {key : Int}
    (hfits : Node.LeafFits lm lo hi parentId isRoot pageId page)
    (hmem : key ∈ page.valid.map (·.1))
    (hmin : if isRoot then 2 ≤ page.header.size else page.header.maxSize / 2 < page.header.size) :
    Node.LeafFits lm lo hi parentId isRoot pageId (page.remove key).1 := by
  obtain ⟨hid, hparent, hmax, hlen, hsort, hbound, hlt, -⟩ := hfits
  obtain ⟨hsize, htd⟩ := page.remove_of_mem hlen hsort hmem
  have hsub : (page.remove key).1.valid.Sublist page.valid :=
    page.valid_remove hlen hsort hmem ▸ List.eraseP_sublist _
  have hhdr := page.remove_header key
  rw [hsize] at hhdr
  have hlen' : page.header.size - 1 ≤ (page.remove key).1.array.length := by
    have := congrArg List.length htd
    simp only [valid, hhdr, List.length_take, List.length_append, List.length_drop] at this
    omega
  simp only [Node.LeafFits, hhdr]
  refine ⟨hid, hparent, hmax, hlen', hsort.sublist (hsub.map _),
    fun x hx => hbound x (hsub.subset hx), by omega, ?_⟩
  cases isRoot <;> simp only [if_true, if_false, Bool.false_eq_true] at hmin ⊢ <;> omega

end LeafPage

/-! ## One call -/

namespace BPlusTree

variable [Inhabited V] {t : BPlusTree V} {fuel : Nat} {N : Node V}

omit [Inhabited V] in
/-- Only the root is placed under `INVALID_PAGE_ID`. -/
theorem Placed.eq_root (hw : t.WellFormedAs fuel N) {q : Int} {lo hi : Option Int}
    {parentId : Int} {isRoot : Bool} {d : Nat} (h : t.Placed q lo hi parentId isRoot d)
    (hinv : parentId = invalidPageId) :
    q = t.rootPageId ∧ lo = none ∧ hi = none ∧ isRoot = true ∧ d = 0 := by
  induction h with
  | root => exact ⟨rfl, rfl, rfl, rfl, rfl⟩
  | child hp _ _ _ =>
    obtain ⟨-, Qp, hQp, -, hsub⟩ := hp.unfold hw.unfold hw.pagesOk
    exact absurd hinv (hw.ids _ (hsub.subset
      (pageId_of_unfold hQp ▸ Node.pageId_mem_pageIds Qp))).1

/-- `CoalesceOrRedistribute` of a page that is not the root and holds at least `GetMinSize()`
pairs changes nothing. -/
theorem coalesceOrRedistribute_of_fits {f : Nat} {nodeId : Int} {node : TreePage V}
    (hnode : t.pageAt nodeId = some node) (hroot : node.isRootPage = false)
    (hfits : node.getMinSize ≤ node.header.size) (deleted : List Int) :
    t.coalesceOrRedistribute (f + 1) nodeId deleted = some (false, t, deleted) := by
  simp [coalesceOrRedistribute, hnode, hroot, hfits]

/-- `CoalesceOrRedistribute` of a root leaf: `AdjustRoot` empties the tree when the leaf holds no
pair, and changes nothing otherwise. -/
theorem coalesceOrRedistribute_rootLeaf {f : Nat} {nodeId : Int} {leaf : LeafPage V}
    (hnode : t.pageAt nodeId = some (.leaf leaf)) (hroot : leaf.header.parentPageId = invalidPageId)
    (deleted : List Int) :
    t.coalesceOrRedistribute (f + 1) nodeId deleted =
      if leaf.header.size = 0 then
        some (true, { t with rootPageId := invalidPageId }.updateRootPageId, deleted)
      else some (false, t, deleted) := by
  have hisRoot : (TreePage.leaf leaf).isRootPage = true := by
    simp [TreePage.isRootPage, hroot]
  simp only [coalesceOrRedistribute, hnode, hisRoot, adjustRoot, Option.bind_eq_bind,
    Option.some_bind, if_true]
  split <;> rfl

omit [Inhabited V] in
/-- Only the root's place is marked as the root's. -/
theorem Placed.parentId_of_isRoot {q : Int} {lo hi : Option Int} {parentId : Int} {d : Nat}
    (h : t.Placed q lo hi parentId true d) : parentId = invalidPageId := by
  cases h
  rfl

/-- `Remove` of a key its leaf holds, when `CoalesceOrRedistribute` of the leaf marks no page
above it: the leaf is deleted exactly when that call returns true. -/
theorem remove_of_present {key leafId : Int} {f : Nat} {page : LeafPage V} {b : Bool}
    {u : BPlusTree V} (hempty : t.isEmpty = false)
    (hleafId : t.getLeafPage key (f + 1) = some leafId) (hleaf : t.leafAt leafId = some page)
    (hne : page.header.size ≠ (page.remove key).2)
    (hcor : (t.setLeaf leafId (page.remove key).1).coalesceOrRedistribute (f + 1) leafId [] =
      some (b, u, [])) :
    t.remove key (f + 1) =
      some (if b then (u.deletePage page.header.pageId, [page.header.pageId]) else (u, [])) := by
  cases b <;> simp [remove, hempty, hleafId, hleaf, hne, hcor, LeafPage.remove_header]

section LeafFor

variable (hw : t.WellFormedAs fuel N) {key leafId : Int} {lo hi : Option Int} {parentId : Int}
  {isRoot : Bool} {d : Nat} {page : LeafPage V}
  (h : t.LeafFor fuel N key leafId lo hi parentId isRoot d page)
include hw h

/-- `Remove` of a key the tree lacks leaves it as it was and deletes no page. -/
theorem LeafFor.remove_of_not_mem {F : Nat} (hleafId : t.getLeafPage key F = some leafId)
    (hmem : key ∉ page.valid.map (·.1)) : t.remove key F = some (t, []) := by
  obtain ⟨-, -, -, hlen, hsort, -⟩ := h.fits
  refine remove_of_absent hw.isEmpty_eq_false hleafId h.leafAt ?_
  rw [page.lookUp_eq_lookup key hlen hsort]
  exact List.lookup_eq_none_iff.mpr fun x hx => by
    simpa using fun h => hmem (List.mem_map.mpr ⟨x, hx, h.symm⟩)

variable (hmem : key ∈ page.valid.map (·.1))
include hmem

/-- `CoalesceOrRedistribute` leaves a leaf that lost a pair where it is when the leaf is the
root and kept a pair, or keeps at least `GetMinSize()` pairs. -/
theorem LeafFor.coalesceOrRedistribute_remove
    (hmin : if isRoot then 2 ≤ page.header.size else page.header.maxSize / 2 < page.header.size)
    (f : Nat) :
    (t.setLeaf leafId (page.remove key).1).coalesceOrRedistribute (f + 1) leafId [] =
      some (false, t.setLeaf leafId (page.remove key).1, []) := by
  obtain ⟨-, hparent, -, hlen, hsort, -⟩ := h.fits
  have hsize := (page.remove_of_mem hlen hsort hmem).1
  cases isRoot
  · -- a leaf below the root: its parent is a page
    refine coalesceOrRedistribute_of_fits (pageAt_setLeaf_self (p := leafId) t _) ?_ ?_ []
    · simpa [TreePage.isRootPage, LeafPage.remove_header, hparent] using
        fun hinv => Bool.false_ne_true (h.placed.eq_root hw hinv).2.2.2.1
    · simp only [TreePage.getMinSize, TreePage.isLeafPage, TreePage.header, if_true,
        LeafPage.remove_header, hsize, Bool.false_eq_true, if_false] at hmin ⊢
      omega
  · -- the root leaf, left with a pair
    rw [coalesceOrRedistribute_rootLeaf (pageAt_setLeaf_self (p := leafId) t _)
      (by rw [LeafPage.remove_header]; exact hparent.trans h.placed.parentId_of_isRoot),
      LeafPage.remove_header]
    simp only [if_true] at hmin
    exact if_neg (by dsimp only; omega)

/-- `Remove` of the one pair of a root leaf: `AdjustRoot` empties the tree, and the root is the
page deleted. -/
theorem LeafFor.remove_emptied {f : Nat} (hleafId : t.getLeafPage key (f + 1) = some leafId)
    (hroot : isRoot = true) (h1 : page.header.size = 1) :
    ∃ u, t.remove key (f + 1) = some (u, [t.rootPageId]) ∧ u.isEmpty = true ∧
      mapErase key N.entries = [] ∧ u.leafMaxSize = t.leafMaxSize ∧
      u.internalMaxSize = t.internalMaxSize := by
  subst hroot
  obtain ⟨hid, hparent, -, hlen, hsort, -⟩ := h.fits
  have hsize := (page.remove_of_mem hlen hsort hmem).1
  obtain ⟨rfl, -, -, -, rfl⟩ := h.placed.eq_root hw h.placed.parentId_of_isRoot
  have hcor := coalesceOrRedistribute_rootLeaf (f := f)
    (pageAt_setLeaf_self (p := t.rootPageId) t (page.remove key).1)
    (by rw [LeafPage.remove_header]; exact hparent.trans h.placed.parentId_of_isRoot) []
  rw [LeafPage.remove_header, if_pos (by dsimp only; omega)] at hcor
  have hrem := remove_of_present hw.isEmpty_eq_false hleafId h.leafAt (by omega) hcor
  rw [if_pos rfl, hid] at hrem
  refine ⟨_, hrem, by simp [isEmpty, deletePage, updateRootPageId], ?_, rfl, rfl⟩
  -- the tree is the leaf alone, and the leaf held `key` alone
  rw [Option.some.inj (hw.unfold.symm.trans h.unfold),
    show (Node.leaf t.rootPageId page).entries = page.valid from rfl,
    ← page.valid_remove hlen hsort hmem]
  simp [LeafPage.valid, LeafPage.remove_header, hsize, h1]

variable (hlm : 2 ≤ t.leafMaxSize) (him : 1 ≤ t.internalMaxSize)
include hlm him

/-- `Remove` of a key in a leaf that stays in place writes the leaf back without the pair and
deletes no page, and the tree holds the map with `key` erased. -/
theorem LeafFor.remove_in_place {f : Nat} (hleafId : t.getLeafPage key (f + 1) = some leafId)
    (hmin : if isRoot then 2 ≤ page.header.size else page.header.maxSize / 2 < page.header.size) :
    t.remove key (f + 1) = some (t.setLeaf leafId (page.remove key).1, []) ∧
      ∃ N', (t.setLeaf leafId (page.remove key).1).WellFormedAs fuel N' ∧
        N'.entries = mapErase key N.entries := by
  obtain ⟨-, -, -, hlen, hsort, -⟩ := h.fits
  have hvalid := page.valid_remove hlen hsort hmem
  obtain ⟨k, hk⟩ : ∃ k, fuel - d = k + 1 := ⟨fuel - d - 1, by have := h.depth; omega⟩
  have hM : (t.setLeaf leafId (page.remove key).1).unfold (fuel - d) leafId =
      some (.leaf leafId (page.remove key).1) := by
    rw [hk]
    exact unfold_succ_of_leaf (pageAt_setLeaf_self _ _)
  have hMok : (Node.leaf leafId (page.remove key).1).pagesOk t.leafMaxSize t.internalMaxSize lo
      hi parentId isRoot = true :=
    Node.pagesOk_leaf_iff.mpr (LeafPage.leafFits_remove h.fits hmem hmin)
  obtain ⟨N', hN', EA, EB, hE, hE'⟩ := wellFormedAs_of_replace hw h.placed h.unfold
    (frame_setPage (.inl (.refl _)) _) hM hMok (List.nodup_singleton _)
    (fun y hy => by rw [List.mem_singleton.mp hy]; exact ⟨h.id.1, h.id.2, .inl (.refl _)⟩)
    (by
      show ChainKept [(leafId, page.nextPageId)] [(leafId, (page.remove key).1.nextPageId)]
      rw [LeafPage.remove_nextPageId]
      exact fun _ _ hl => hl)
  change N.entries = EA ++ page.valid ++ EB at hE
  change N'.entries = EA ++ (page.remove key).1.valid ++ EB at hE'
  -- the pairs before the leaf lack `key`, since the keys of the tree are distinct
  have hkeys := (unfold_inRange hlm him hw.unfold hw.pagesOk).2.1
  have hnodup : ((EA ++ page.valid ++ EB).map (·.1)).Nodup := by
    rw [← hE]
    exact hkeys.imp fun hlt' => Int.ne_of_lt hlt'
  have hEA : ∀ a ∈ EA, a.1 ≠ key := fun a ha hak => by
    rw [List.map_append, List.map_append, List.nodup_append, List.nodup_append] at hnodup
    exact hnodup.1.2.2 (List.mem_map_of_mem _ ha) (hak ▸ hmem)
  refine ⟨?_, N', hN', ?_⟩
  · have hsize := (page.remove_of_mem hlen hsort hmem).1
    have hpos := (page.keyIndex_of_mem hlen hsort hmem).1
    have hrem := remove_of_present hw.isEmpty_eq_false hleafId h.leafAt (by omega)
      (h.coalesceOrRedistribute_remove hw hmem hmin f)
    rwa [if_neg Bool.false_ne_true] at hrem
  rw [hE, hE', mapErase_append_middle hEA hmem, hvalid]

end LeafFor

/-- `Remove(key)` on a tree that holds a map, where the leaf of `key`, if it holds `key`, is the
root or keeps at least `GetMinSize()` pairs after losing it, leaves a tree that holds the map
with `key` erased, within the same fuel.  It deletes a page only when the map held `key` alone,
and that page is the root. -/
theorem remove_refines (hlm : 2 ≤ t.leafMaxSize) (him : 1 ≤ t.internalMaxSize)
    {pairs : List (Int × V)} (h : t.Holds fuel pairs) (key : Int) {F : Nat} (hF : fuel ≤ F)
    (hfits : ∀ leafId page, t.getLeafPage key F = some leafId → t.leafAt leafId = some page →
      key ∈ page.valid.map (·.1) → page.header.parentPageId = invalidPageId ∨
        (TreePage.leaf page).getMinSize < page.header.size) :
    ∃ u deleted, t.remove key F = some (u, deleted) ∧ u.Holds fuel (mapErase key pairs) ∧
      (deleted = [] ∨ deleted = [t.rootPageId] ∧ mapErase key pairs = []) ∧
      u.leafMaxSize = t.leafMaxSize ∧ u.internalMaxSize = t.internalMaxSize := by
  rcases h with ⟨hempty, rfl⟩ | ⟨N, hw, rfl⟩
  · exact ⟨t, [], by simp [remove, hempty], .inl ⟨hempty, rfl⟩, .inl rfl, rfl, rfl⟩
  obtain ⟨leafId, lo, hi, parentId, isRoot, d, page, hleafId, hL⟩ :=
    getLeafPage_leafFor hw hlm him key hF
  by_cases hmem : key ∈ page.valid.map (·.1)
  swap
  · exact ⟨t, [], hL.remove_of_not_mem hw hleafId hmem,
      .inr ⟨N, hw, (mapErase_of_not_mem (mt hL.mem_iff.mp hmem)).symm⟩, .inl rfl, rfl, rfl⟩
  obtain ⟨f, rfl⟩ : ∃ f, F = f + 1 := ⟨F - 1, by have := hL.depth; omega⟩
  by_cases hmin : if isRoot then 2 ≤ page.header.size else page.header.maxSize / 2 < page.header.size
  · obtain ⟨hrem, N', hN', hE'⟩ := hL.remove_in_place hw hmem hlm him hleafId hmin
    exact ⟨_, _, hrem, .inr ⟨N', hN', hE'⟩, .inl rfl, rfl, rfl⟩
  -- otherwise the leaf is a root leaf with one pair
  obtain ⟨-, hparent, -, -, -, -, -, hlow⟩ := hL.fits
  cases isRoot
  · rcases hfits leafId page hleafId hL.leafAt hmem with hroot | hgt
    · exact absurd (hL.placed.eq_root hw (hparent ▸ hroot)).2.2.2.1 Bool.false_ne_true
    · exact absurd (by simpa [TreePage.getMinSize, TreePage.isLeafPage, TreePage.header] using hgt)
        hmin
  · simp only [if_true] at hmin hlow
    obtain ⟨u, hrem, hu, hnil, hulm, huim⟩ :=
      hL.remove_emptied hw hmem hleafId rfl (by omega)
    exact ⟨u, _, hrem, .inl ⟨hu, hnil⟩, .inr ⟨rfl, hnil⟩, hulm, huim⟩

/-- Removing key 2 from a root over the leaves `[1, 2, 3, 4]` and `[5, 6, 7]`, with
`leaf_max_size` 6, leaves the first leaf with three pairs, `GetMinSize()`, in place. -/
theorem remove_refines_twoLeaves :
    ∃ u deleted, (⟨PageStore.ofPages
        [(1, .internal ⟨⟨2, 3, invalidPageId, 1⟩, [(0, 2), (5, 3)]⟩),
          (2, .leaf ⟨⟨4, 6, 1, 2⟩, 3, [(1, 10), (2, 20), (3, 30), (4, 40)]⟩),
          (3, .leaf ⟨⟨3, 6, 1, 3⟩, invalidPageId, [(5, 50), (6, 60), (7, 70)]⟩)] 4,
        1, 6, 3, [1]⟩ : BPlusTree Nat).remove 2 2 = some (u, deleted) ∧
      u.Holds 2 (mapErase 2 [(1, 10), (2, 20), (3, 30), (4, 40), (5, 50), (6, 60), (7, 70)]) ∧
      (deleted = [] ∨ deleted = [1] ∧
        mapErase 2 [(1, 10), (2, 20), (3, 30), (4, 40), (5, 50), (6, 60), (7, 70)] = []) ∧
      u.leafMaxSize = 6 ∧ u.internalMaxSize = 3 := by
  apply remove_refines
  · decide
  · decide
  · exact .inr ⟨_, ⟨rfl, by decide, by decide, by decide, by decide⟩, rfl⟩
  · exact Nat.le_refl 2
  · intro leafId page hleafId hleaf _
    cases hleafId
    cases hleaf
    decide


end BPlusTree

end Bustub
