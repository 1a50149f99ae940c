import Bustub.Index.Subtree
import Bustub.Index.Frame
import Bustub.Index.Remove

/-!
# Safe pages bound what a call changes

`GetLeafPage` releases the latches above a page that `IsPageSafe` calls safe for the operation:
the premise is that `Insert` or `Remove` then changes nothing above that page.  This module proves
it of the code.  For a well-formed tree and a page `P` on the search path of the key that is safe
for the operation, every page the call changes is under `P` or a page `NewPage` gave out during
the call; `root_page_id_` and the header page are as they were.

*Insert.*  A leaf that splits hands a new page to `InsertIntoParent`, which climbs the parent
pointers.  Below `P` each step may split the parent; at `P`, which has room for one more child,
it stops (`insertIntoParent_frame`).  The climb keeps its changes under the page it has reached,
or at new pages, so the parent it goes to next is as it was in the tree it started from.

*Remove.*  `CoalesceOrRedistribute` climbs the same way from the leaf.  Each step changes the page,
a sibling under the same parent, the children it moves, and the parent; at `P`, which holds more
than its minimum, it stops (`coalesceOrRedistribute_frame`).
-/

namespace Bustub

namespace BPlusTree

variable {V : Type} {t : BPlusTree V}

/-! ## Insert -/

/-- The climb of `InsertIntoParent` from the child `c` of a page `p` on a chain of links below an
insert-safe page `P`, with the changes so far under `c` or at new pages, ends with the changes
under `P` or at new pages. -/
theorem insertIntoParent_frame {P : Int}
    (hsafe : ∀ page, t.internalAt P = some page → page.header.size < page.header.maxSize) :
    ∀ (fuel : Nat) {p c key r : Int} {u u' : BPlusTree V},
      Relation.ReflTransGen t.Link P p → t.Link p c →
      Frame (fun q => t.Reaches c q ∨ t.store.nextPageId ≤ q) t u →
      (∃ page, u.pageAt c = some page ∧ page.header.pageId = c ∧ page.header.parentPageId = p) →
      (∃ page, u.pageAt r = some page ∧ page.header.pageId = r) →
      t.store.nextPageId ≤ r → r < u.store.nextPageId →
      u.insertIntoParent fuel c key r = some u' →
      Frame (fun q => t.Reaches P q ∨ t.store.nextPageId ≤ q) t u'
  | 0, _, _, _, _, _, _, _, _, _, _, _, _, _, h => nomatch h
  | fuel + 1, p, c, key, r, u, u', hpath, ⟨page, hok, i, hi, hc⟩, hframe,
      ⟨left, hleft, hlid, hlparent⟩, ⟨right, hright, hrid⟩, hrfresh, hrlt, h => by
    subst hc
    have hpalloc := hok.allocated p (.refl _)
    have hpage : u.internalAt p = some page := by
      rw [hframe.internalAt, hok.internalAt]
      rintro (hreach | hfresh)
      · exact hok.not_reaches i hi hreach
      · exact absurd hfresh (Int.not_le.mpr hpalloc.2)
    have hroot : left.isRootPage = false := by
      simp [TreePage.isRootPage, hlparent, hpalloc.1]
    simp only [insertIntoParent, hleft, hright, hroot, hlparent, hlid, hrid, hpage,
      Option.bind_eq_bind, Option.some_bind, Bool.false_eq_true, if_false] at h
    have hsub : ∀ q, t.Reaches p q → t.Reaches P q := fun q =>
      (reaches_of_reflTransGen hpath).trans
    have hframe₁ : Frame (fun q => t.Reaches p q ∨ t.store.nextPageId ≤ q) t
        (u.setInternal p (page.insert (page.valueAt i) key r).1) :=
      (hframe.mono fun q => Or.imp_left (Reaches.of_slot hok.internalAt hi).trans).trans
        (frame_setPage (.inl (.refl _)) _)
    split at h
    · simp only [Option.pure_def, Option.some.injEq] at h
      subst h
      exact hframe₁.mono fun q => Or.imp_left (hsub q)
    rename_i hover
    have hfull : page.header.size = t.internalMaxSize := by
      have := hok.size_le
      simp only [InternalPage.insert, setInternal, setPage, hframe.internalMaxSize] at hover
      omega
    rcases hpath.cases_tail with rfl | ⟨pp, hpath', hlink'⟩
    · have := hsafe page hok.internalAt
      rw [hok.maxSize] at this
      omega
    obtain ⟨⟨s, t₂⟩, hsplit, h⟩ := Option.bind_eq_some.mp h
    obtain ⟨rfl, hnext, hframe₂, ⟨sp, hsp, hspid⟩, hkeep⟩ :=
      splitInternal_spec (internalAt_setInternal_self _ _)
        (ne_of_lt (Int.lt_of_lt_of_le hpalloc.2 hframe.nextPageId)) hsplit
    obtain ⟨sp', -, h⟩ := Option.bind_eq_some.mp h
    -- the children the split moves are the page's children or the new page `r`
    have hmoved : ∀ q, (∃ j ≤ (page.insert (page.valueAt i) key r).1.header.maxSize,
        q = (page.insert (page.valueAt i) key r).1.valueAt j) →
        q = r ∨ ∃ i' < page.header.size, q = page.valueAt i' := by
      rintro q ⟨j, hj, rfl⟩
      have hj' : j < page.header.size + 1 := by
        have := hok.maxSize
        simp only [InternalPage.insert] at hj
        omega
      rcases page.valueAt_insert (page.valueIndex_lt hi) hj' with heq | ⟨i', hi', heq⟩
      · exact .inl heq
      · exact .inr ⟨i', hi', heq⟩
    have hnotp : ¬ ∃ j ≤ (page.insert (page.valueAt i) key r).1.header.maxSize,
        p = (page.insert (page.valueAt i) key r).1.valueAt j := fun hp =>
      (hmoved p hp).elim (fun hpr => absurd (hpr ▸ hrfresh) (Int.not_le.mpr hpalloc.2))
        fun ⟨i', hi', heq⟩ => hok.not_reaches i' hi' (heq ▸ .refl _)
    have hp₂ := hkeep hnotp
    obtain ⟨ppage, hppage, -, hpparent⟩ := hlink'.header
    rw [pageAt_of_internalAt hok.internalAt, Option.some.injEq] at hppage
    subst hppage
    refine insertIntoParent_frame hsafe fuel hpath' hlink'
      ((hframe₁.trans (hframe₂.mono fun q hq => ?_)))
      ⟨_, pageAt_of_internalAt hp₂, hok.pageId, hpparent⟩ ⟨_, pageAt_of_internalAt hsp, hspid⟩
      hframe.nextPageId hnext h
    rcases hq with rfl | rfl | hq
    · exact .inl (.refl _)
    · exact .inr hframe.nextPageId
    · rcases hmoved q hq with rfl | ⟨i', hi', rfl⟩
      · exact .inr hrfresh
      · exact .inl (.of_slot hok.internalAt hi')

variable [Inhabited V]

/-- `InsertIntoLeaf` on the leaf the search path reaches through an insert-safe page `P` changes
only pages under `P` and new pages; when `P` is the leaf, it changes the leaf alone. -/
theorem insertIntoLeaf_frame {P leafId key : Int} {value : V} {fuel : Nat} {pageP : TreePage V}
    {b : Bool} {t' : BPlusTree V} (hP : t.pageAt P = some pageP)
    (hsafe : pageP.isPageSafe .insert = true) (hchain : Relation.ReflTransGen t.Link P leafId)
    (hmax : ∀ leaf, t.leafAt leafId = some leaf → leaf.header.maxSize = t.leafMaxSize)
    (hleafId : t.getLeafPage key fuel = some leafId)
    (h : t.insertIntoLeaf key value fuel = some (b, t')) :
    Frame (fun q => t.Reaches P q ∨ t.store.nextPageId ≤ q) t t' ∧
      (P = leafId → Frame (· = leafId) t t') := by
  simp only [insertIntoLeaf, hleafId, Option.bind_eq_bind, Option.some_bind] at h
  obtain ⟨leaf, hleaf, h⟩ := Option.bind_eq_some.mp h
  have hLP : t.Reaches P leafId := reaches_of_reflTransGen hchain
  have hframe₁ : Frame (· = leafId) t (t.setLeaf leafId (leaf.insert key value).1) :=
    frame_setPage (S := (· = leafId)) rfl _
  have hdone : Frame (fun q => t.Reaches P q ∨ t.store.nextPageId ≤ q) t
      (t.setLeaf leafId (leaf.insert key value).1) ∧
      (P = leafId → Frame (· = leafId) t (t.setLeaf leafId (leaf.insert key value).1)) :=
    ⟨hframe₁.mono fun q hq => .inl (hq ▸ hLP), fun _ => hframe₁⟩
  by_cases hdup : leaf.header.size = (leaf.insert key value).2
  · rw [if_pos hdup] at h
    simp only [Option.pure_def, Option.some.injEq, Prod.mk.injEq] at h
    exact h.2 ▸ hdone
  rw [if_neg hdup] at h
  by_cases hover :
      (leaf.insert key value).2 < (t.setLeaf leafId (leaf.insert key value).1).leafMaxSize
  · rw [if_pos hover] at h
    simp only [Option.pure_def, Option.some.injEq, Prod.mk.injEq] at h
    exact h.2 ▸ hdone
  rw [if_neg hover] at h
  have hafter : (leaf.insert key value).2 = leaf.header.size + 1 :=
    (leaf.insert_size key value).resolve_left (Ne.symm hdup)
  rcases hchain.cases_tail with hPL | ⟨p, hpath, hlink⟩
  · -- a safe leaf has room for the pair
    subst hPL
    rw [pageAt_of_leafAt hleaf, Option.some.injEq] at hP
    subst hP
    simp only [TreePage.isPageSafe, TreePage.isLeafPage, if_true, TreePage.header_leaf,
      decide_eq_true_eq, hmax leaf hleaf] at hsafe
    simp only [setLeaf, setPage, hafter] at hover
    omega
  obtain ⟨ppage, hokp, i, hi, hL⟩ := id hlink
  have hLalloc := hokp.allocated leafId (hL ▸ .of_slot hokp.internalAt hi)
  obtain ⟨⟨s, t₂⟩, hsplit, h⟩ := Option.bind_eq_some.mp h
  obtain ⟨rfl, hnext, hframe₂, hL₂, sib, hsib, hsibid⟩ :=
    splitLeaf_spec (leafAt_setLeaf_self _ _) (ne_of_lt hLalloc.2) hsplit
  have hsL : t.store.nextPageId ≠ leafId := ne_of_gt hLalloc.2
  simp only [nextPageId_setLeaf] at hsib hnext h
  obtain ⟨sibling, hsibling, h⟩ := Option.bind_eq_some.mp h
  obtain ⟨leaf₁, -, h⟩ := Option.bind_eq_some.mp h
  obtain ⟨leaf₂, hleaf₂, h⟩ := Option.bind_eq_some.mp h
  obtain ⟨sibling₂, -, h⟩ := Option.bind_eq_some.mp h
  obtain ⟨keyLeaf, -, h⟩ := Option.bind_eq_some.mp h
  obtain ⟨t₅, h₅, h₆⟩ := Option.bind_eq_some.mp h
  simp only [Option.pure_def, Option.some.injEq, Prod.mk.injEq] at h₆
  have h₇ := h₆.2
  subst h₇
  rw [hsib, Option.some.injEq] at hsibling
  rw [leafAt_setLeaf_ne _ hsL.symm, hL₂, Option.some.injEq] at hleaf₂
  subst hsibling hleaf₂
  obtain ⟨x, hx, hxid, hxparent⟩ := hlink.header
  rw [pageAt_of_leafAt hleaf, Option.some.injEq] at hx
  subst hx
  have hsafe' : ∀ page, t.internalAt P = some page → page.header.size < page.header.maxSize := by
    intro page hpage
    rw [pageAt_of_internalAt hpage, Option.some.injEq] at hP
    subst hP
    simpa [TreePage.isPageSafe, TreePage.isLeafPage] using hsafe
  refine ⟨insertIntoParent_frame hsafe' fuel hpath hlink
    (((hframe₁.mono fun q hq => .inl (hq ▸ .refl _)).trans (hframe₂.mono ?_)).trans
      ((frame_setPage (.inr (Int.le_refl _)) _).trans (frame_setPage (.inl (.refl _)) _)))
    ⟨_, pageAt_setLeaf_self _ _, by simpa [LeafPage.insert_header] using hxid,
      by simpa [LeafPage.insert_header] using hxparent⟩
    ⟨_, (pageAt_setLeaf_ne _ hsL _).trans (pageAt_setLeaf_self _ _), by simpa using hsibid⟩
    (Int.le_refl _) hnext h₅, fun hPL => ?_⟩
  · rintro q (rfl | rfl)
    · exact .inl (.refl _)
    · exact .inr (Int.le_refl _)
  · exact (hokp.not_reaches i hi (by rw [hL, ← hPL]; exact reaches_of_reflTransGen hpath)).elim

/-! ## Remove -/

/-- `Redistribute(sibling_node, node, parent_page, index)` changes the page, the sibling, the
parent and the child the sibling hands over, from its first or last slot. -/
theorem frame_redistribute {s n p : Int} {index : Nat} {u u' : BPlusTree V} (hsn : s ≠ n)
    (h : u.redistribute s n p index = some u') :
    Frame (fun q => q = n ∨ q = s ∨ q = p ∨ ∃ sp, u.internalAt s = some sp ∧
      (q = sp.valueAt 0 ∨ q = sp.valueAt (sp.header.size - 1))) u u' := by
  simp only [redistribute, Option.bind_eq_bind] at h
  obtain ⟨node, -, h⟩ := Option.bind_eq_some.mp h
  cases node with
  | leaf =>
    simp only at h
    split at h
    all_goals
      obtain ⟨u₁, h₁, h⟩ := Option.bind_eq_some.mp h
      obtain ⟨_, -, h⟩ := Option.bind_eq_some.mp h
      obtain ⟨_, -, h⟩ := Option.bind_eq_some.mp h
      cases Option.some.inj h
    · exact ((frame_leafMoveFirstToEnd h₁).mono fun q hq => .inl (hq.elim id id)).trans
        (frame_setPage (.inr (.inr (.inl rfl))) _)
    · exact ((frame_leafMoveLastToFront h₁).mono fun q hq => .inl (hq.elim id id)).trans
        (frame_setPage (.inr (.inr (.inl rfl))) _)
  | internal =>
    simp only at h
    split at h
    all_goals
      obtain ⟨_, -, h⟩ := Option.bind_eq_some.mp h
      obtain ⟨u₁, h₁, h⟩ := Option.bind_eq_some.mp h
      obtain ⟨_, -, h⟩ := Option.bind_eq_some.mp h
      obtain ⟨_, -, h⟩ := Option.bind_eq_some.mp h
      cases Option.some.inj h
    · obtain ⟨sp, hsp, -⟩ := Option.bind_eq_some.mp h₁
      refine ((frame_internalMoveFirstToEnd hsp h₁).mono ?_).trans
        (frame_setPage (.inr (.inr (.inl rfl))) _)
      rintro q (rfl | rfl | rfl)
      exacts [.inr (.inl rfl), .inl rfl, .inr (.inr (.inr ⟨sp, hsp, .inl rfl⟩))]
    · refine ((frame_internalMoveLastToFront hsn h₁).mono ?_).trans
        (frame_setPage (.inr (.inr (.inl rfl))) _)
      rintro q (rfl | rfl | ⟨sp, hsp, rfl⟩)
      exacts [.inr (.inl rfl), .inl rfl, .inr (.inr (.inr ⟨sp, hsp, .inr rfl⟩))]

/-- `Coalesce`'s merge changes the two pages and the children of the right one, and then writes
the parent without the slot `parentKeyIndex`. -/
theorem coalesceMove_eq {left right p : Int} {pki : Nat} {u u' : BPlusTree V}
    (h : u.coalesceMove left right p pki = some u') :
    ∃ u₁ parent, Frame (fun q => q = left ∨ q = right ∨ ∃ rp, u.internalAt right = some rp ∧
        ∃ j < rp.header.size, q = rp.valueAt j) u u₁ ∧
      u₁.internalAt p = some parent ∧ u' = u₁.setInternal p (parent.remove pki) := by
  simp only [coalesceMove, Option.bind_eq_bind] at h
  obtain ⟨rightPage, -, h⟩ := Option.bind_eq_some.mp h
  cases rightPage with
  | leaf =>
    simp only [Option.bind_eq_bind] at h
    obtain ⟨u₂, h₂, h⟩ := Option.bind_eq_some.mp h
    obtain ⟨_, -, h⟩ := Option.bind_eq_some.mp h
    obtain ⟨_, -, h⟩ := Option.bind_eq_some.mp h
    obtain ⟨u₁, hu₁, h⟩ := Option.bind_eq_some.mp h
    cases Option.some.inj hu₁
    obtain ⟨parent, hparent, h⟩ := Option.bind_eq_some.mp h
    cases Option.some.inj h
    refine ⟨_, parent, ((frame_leafMoveAllTo h₂).mono ?_).trans (frame_setPage (.inl rfl) _),
      hparent, rfl⟩
    rintro q (rfl | rfl)
    exacts [.inr (.inl rfl), .inl rfl]
  | internal =>
    simp only [Option.bind_eq_bind] at h
    obtain ⟨_, -, h⟩ := Option.bind_eq_some.mp h
    obtain ⟨u₁, h₁, h⟩ := Option.bind_eq_some.mp h
    obtain ⟨parent, hparent, h⟩ := Option.bind_eq_some.mp h
    cases Option.some.inj h
    obtain ⟨rp, hrp, -⟩ := Option.bind_eq_some.mp h₁
    refine ⟨u₁, parent, (frame_internalMoveAllTo hrp h₁).mono ?_, hparent, rfl⟩
    rintro q (rfl | rfl | ⟨j, hj, rfl⟩)
    exacts [.inr (.inl rfl), .inl rfl, .inr (.inr ⟨rp, hrp, j, hj, rfl⟩)]

omit [Inhabited V] in
/-- `AdjustRoot` leaves alone an internal root with more than one child. -/
theorem adjustRoot_internal {r : Int} {page : InternalPage} {u : BPlusTree V}
    (hr : u.pageAt r = some (.internal page)) (hsize : page.header.size ≠ 1) :
    u.adjustRoot r = some (false, u) := by
  simp [adjustRoot, hr, hsize]

omit [Inhabited V] in
/-- `AdjustRoot` leaves alone a leaf root that holds a pair. -/
theorem adjustRoot_leaf {r : Int} {page : LeafPage V} {u : BPlusTree V}
    (hr : u.pageAt r = some (.leaf page)) (hsize : page.header.size ≠ 0) :
    u.adjustRoot r = some (false, u) := by
  simp [adjustRoot, hr, hsize]

/-- The page `after` is the page `before` with at most one pair taken out and keys rewritten: the
same kind, id, parent and maximum size, at most one slot fewer, and for an internal page only
children it had. -/
def Shrunk : TreePage V → TreePage V → Prop
  | .leaf a, .leaf b => b.header.pageId = a.header.pageId ∧
    b.header.parentPageId = a.header.parentPageId ∧ b.header.maxSize = a.header.maxSize ∧
    a.header.size ≤ b.header.size + 1
  | .internal a, .internal b => b.header.pageId = a.header.pageId ∧
    b.header.parentPageId = a.header.parentPageId ∧ b.header.maxSize = a.header.maxSize ∧
    a.header.size ≤ b.header.size + 1 ∧
    ∀ j < b.header.size, ∃ i < a.header.size, b.valueAt j = a.valueAt i
  | _, _ => False

omit [Inhabited V] in
theorem Shrunk.header {a b : TreePage V} (h : Shrunk a b) :
    b.header.pageId = a.header.pageId ∧ b.header.parentPageId = a.header.parentPageId ∧
      b.getMinSize = a.getMinSize ∧ a.header.size ≤ b.header.size + 1 := by
  cases a <;> cases b <;> simp only [Shrunk] at h
  · obtain ⟨hid, hparent, hmax, hsize⟩ := h
    simp [TreePage.getMinSize, TreePage.isLeafPage, hid, hparent, hmax, hsize]
  · obtain ⟨hid, hparent, hmax, hsize, -⟩ := h
    simp [TreePage.getMinSize, TreePage.isLeafPage, hid, hparent, hmax, hsize]

omit [Inhabited V] in
/-- On a chain of links from `P`, only `P` can be a root page: every page below it names a parent
that `NewPage` gave out. -/
theorem eq_of_reflTransGen_link_isRootPage {P n : Int} {pt : TreePage V}
    (hpath : Relation.ReflTransGen t.Link P n) (hpt : t.pageAt n = some pt)
    (hroot : pt.isRootPage = true) : n = P := by
  rcases hpath.cases_tail with h | ⟨p, -, hlink⟩
  · exact h
  · obtain ⟨page, hok, i, hi, rfl⟩ := id hlink
    obtain ⟨x, hx, -, hxp⟩ := hlink.header
    rw [hpt, Option.some.injEq] at hx
    subst hx
    simp [TreePage.isRootPage, hxp, (hok.allocated p (.refl _)).1] at hroot

omit [Inhabited V] in
/-- `Remove(index)` of an internal page shrinks it. -/
theorem shrunk_remove (page : InternalPage) (index : Nat) :
    Shrunk (.internal page : TreePage V) (.internal (page.remove index)) :=
  ⟨rfl, rfl, rfl, by simp only [InternalPage.remove]; omega,
    fun _ hj => page.valueAt_remove index hj⟩

/-- The climb of `CoalesceOrRedistribute` from a page `n` on a chain of links below a delete-safe
page `P`, with the changes so far under `n` and `n` shrunk by at most one pair, ends with the
changes and the pages to delete under `P`; at `P` itself it changes nothing. -/
theorem coalesceOrRedistribute_frame {P : Int} {pageP : TreePage V} (hP : t.pageAt P = some pageP)
    (hsafe : pageP.isPageSafe .delete = true) :
    ∀ (fuel : Nat) {n : Int} {deleted : List Int} {u u' : BPlusTree V} {b : Bool}
      {deleted' : List Int},
      Relation.ReflTransGen t.Link P n → Frame (t.Reaches n) t u →
      (∃ pt pu, t.pageAt n = some pt ∧ u.pageAt n = some pu ∧ Shrunk pt pu) →
      (∀ q ∈ deleted, t.Reaches n q) →
      u.coalesceOrRedistribute fuel n deleted = some (b, u', deleted') →
      Frame (t.Reaches P) t u' ∧ (∀ q ∈ deleted', t.Reaches P q) ∧
        (n = P → b = false ∧ u' = u ∧ deleted' = deleted)
  | 0, _, _, _, _, _, _, _, _, _, _, h => nomatch h
  | fuel + 1, n, deleted, u, u', b, deleted', hpath, hframe, ⟨pt, pu, hpt, hpu, hshrunk⟩, hdel,
      h => by
    have hnP : t.Reaches P n := reaches_of_reflTransGen hpath
    obtain ⟨hid, hparent, hmin, hsize⟩ := hshrunk.header
    have hstop : Frame (t.Reaches P) t u ∧ ∀ q ∈ deleted, t.Reaches P q :=
      ⟨hframe.mono fun q => hnP.trans, fun q hq => hnP.trans (hdel q hq)⟩
    simp only [coalesceOrRedistribute, hpu, Option.bind_eq_bind, Option.some_bind] at h
    by_cases hisroot : pu.isRootPage = true
    · -- only `P` can be the root, and a delete-safe root keeps enough pairs
      rw [if_pos hisroot] at h
      have hisroot' : pt.isRootPage = true := by
        simpa only [TreePage.isRootPage, hparent] using hisroot
      obtain rfl := eq_of_reflTransGen_link_isRootPage hpath hpt hisroot'
      rw [hP, Option.some.injEq] at hpt
      subst hpt
      have hadj : u.adjustRoot n = some (false, u) := by
        cases pageP <;> cases pu <;> simp only [Shrunk] at hshrunk <;>
          simp only [TreePage.isPageSafe, hisroot', if_true, TreePage.isLeafPage,
            TreePage.header_leaf, TreePage.header_internal, Bool.false_eq_true, if_false,
            decide_eq_true_eq] at hsafe hsize
        · exact adjustRoot_leaf hpu (by omega)
        · exact adjustRoot_internal hpu (by omega)
      simp only [hadj, Option.some_bind, Option.pure_def, Option.some.injEq, Prod.mk.injEq] at h
      obtain ⟨rfl, rfl, rfl⟩ := h
      exact ⟨hstop.1, hstop.2, fun _ => ⟨rfl, rfl, rfl⟩⟩
    rw [if_neg hisroot] at h
    by_cases hunder : pu.getMinSize ≤ pu.header.size
    · rw [if_pos hunder] at h
      simp only [Option.pure_def, Option.some.injEq, Prod.mk.injEq] at h
      obtain ⟨rfl, rfl, rfl⟩ := h
      exact ⟨hstop.1, hstop.2, fun _ => ⟨rfl, rfl, rfl⟩⟩
    rw [if_neg hunder] at h
    -- an underfull page is not `P`, which holds more than its minimum
    rcases hpath.cases_tail with hnP' | ⟨p, hpath', hlink⟩
    · have hnotroot' : pt.isRootPage = false := by
        simpa only [TreePage.isRootPage, hparent, Bool.not_eq_true] using hisroot
      subst hnP'
      rw [hP, Option.some.injEq] at hpt
      subst hpt
      simp only [TreePage.isPageSafe, hnotroot', Bool.false_eq_true, if_false,
        decide_eq_true_eq] at hsafe
      omega
    obtain ⟨page, hok, i, hi, hni⟩ := id hlink
    have hpP := reaches_of_reflTransGen hpath'
    have hnotP : n ≠ P := fun h' =>
      hok.not_reaches i hi (by rw [hni, h']; exact hpP)
    obtain ⟨x, hx, hxid, hxp⟩ := hlink.header
    rw [hpt, Option.some.injEq] at hx
    subst hx
    rw [hid.trans hxid, hparent.trans hxp] at h
    have hpage : u.internalAt p = some page := by
      rw [hframe.internalAt fun hr => hok.not_reaches i hi (hni ▸ hr), hok.internalAt]
    simp only [hpage, Option.some_bind] at h
    -- the slot of `n` in its parent, and the sibling's
    have hidx : page.valueIndex n < page.header.size := hni ▸ page.valueIndex_lt hi
    have hval : page.valueAt (page.valueIndex n) = n :=
      hni ▸ page.valueAt_valueIndex hok.size_le_length hi
    have hjs : (if page.valueIndex n = 0 then 1 else page.valueIndex n - 1) < page.header.size ∧
        (if page.valueIndex n = 0 then 1 else page.valueIndex n - 1) ≠ page.valueIndex n := by
      have := hok.two_le_size
      split <;> omega
    generalize hs : page.valueAt (if page.valueIndex n = 0 then 1 else page.valueIndex n - 1) = s at h
    have hpn : t.Reaches p n := hni ▸ .of_slot hok.internalAt hi
    have hps : t.Reaches p s := hs ▸ .of_slot hok.internalAt hjs.1
    have hs_not : ¬ t.Reaches n s := fun h' =>
      hok.disjoint _ _ hjs.1 hidx hjs.2 s (hs ▸ .refl _) (by rw [hval]; exact h')
    have hnotp : ∀ q, t.Reaches n q ∨ t.Reaches s q → q ≠ p := by
      rintro q (hq | hq) rfl
      · exact hok.not_reaches i hi (hni ▸ hq)
      · exact hok.not_reaches _ hjs.1 (hs ▸ hq)
    have hsint : ∀ sp, u.internalAt s = some sp → t.internalAt s = some sp := fun sp hsp =>
      (hframe.internalAt hs_not) ▸ hsp
    obtain ⟨sib, hsib, -⟩ := hok.child _ hjs.1
    rw [hs] at hsib
    rw [(hframe.pageAt s hs_not).trans hsib, Option.some_bind] at h
    split at h
    · -- `Redistribute`: the climb stops
      obtain ⟨u₁, h₁, h⟩ := Option.bind_eq_some.mp h
      simp only [Option.pure_def, Option.some.injEq, Prod.mk.injEq] at h
      obtain ⟨rfl, rfl, rfl⟩ := h
      refine ⟨(hframe.mono fun q => hnP.trans).trans
        ((frame_redistribute (fun h' => hs_not (by rw [h']; exact .refl _)) h₁).mono ?_), hstop.2,
        fun h' => absurd h' hnotP⟩
      rintro q (rfl | rfl | rfl | ⟨sp, hsp, hq⟩)
      · exact hnP
      · exact hpP.trans hps
      · exact hpP
      · have hsp' := hsint sp hsp
        have h2 := hok.child_size _ hjs.1 sp (by rw [hs]; exact hsp')
        rcases hq with rfl | rfl
        · exact hpP.trans (hps.trans (.of_slot hsp' (by omega)))
        · exact hpP.trans (hps.trans (.of_slot hsp' (by omega)))
    -- `Coalesce`: the merge stays under `n` and `s`, and the climb goes on at `p`
    generalize htriple : (if page.valueIndex n = 0 then (1, n, s)
      else (page.valueIndex n, s, n)) = triple at h
    have hlr : (triple.2.1 = n ∨ triple.2.1 = s) ∧ (triple.2.2 = n ∨ triple.2.2 = s) := by
      subst htriple
      split <;> simp
    obtain ⟨u₁, h₁, h⟩ := Option.bind_eq_some.mp h
    obtain ⟨⟨b₂, u₂, deleted₂⟩, h₂, h⟩ := Option.bind_eq_some.mp h
    simp only [Option.pure_def, Option.some.injEq, Prod.mk.injEq] at h
    obtain ⟨rfl, rfl, rfl⟩ := h
    obtain ⟨u₀, parent, hframe₀, hparent₀, rfl⟩ := coalesceMove_eq h₁
    have hmerge : ∀ q, (q = triple.2.1 ∨ q = triple.2.2 ∨ ∃ rp, u.internalAt triple.2.2 = some rp ∧
        ∃ j < rp.header.size, q = rp.valueAt j) → t.Reaches n q ∨ t.Reaches s q := by
      rintro q (rfl | rfl | ⟨rp, hrp, j, hj, rfl⟩)
      · exact hlr.1.elim (fun h' => .inl (h' ▸ .refl _)) fun h' => .inr (h' ▸ .refl _)
      · exact hlr.2.elim (fun h' => .inl (h' ▸ .refl _)) fun h' => .inr (h' ▸ .refl _)
      · rcases hlr.2 with h' | h' <;> rw [h'] at hrp
        · rw [pageAt_of_internalAt hrp, Option.some.injEq] at hpu
          subst hpu
          cases pt with
          | leaf => exact hshrunk.elim
          | internal a =>
            obtain ⟨i', hi', heq⟩ := hshrunk.2.2.2.2 j hj
            exact .inl (heq ▸ .of_slot (by simp [internalAt, hpt]) hi')
        · exact .inr (.of_slot (hsint rp hrp) hj)
    have hsub : ∀ q, t.Reaches n q ∨ t.Reaches s q → t.Reaches p q := fun q hq =>
      hq.elim hpn.trans hps.trans
    rw [hframe₀.internalAt fun hp => hnotp p (hmerge p hp) rfl, hpage, Option.some.injEq] at hparent₀
    subst hparent₀
    obtain ⟨hf₂, hdel₂, -⟩ := coalesceOrRedistribute_frame hP hsafe fuel hpath'
      (((hframe.mono fun q hq => hsub q (.inl hq)).trans
        (hframe₀.mono fun q hq => hsub q (hmerge q hq))).trans (frame_setPage (.refl p) _))
      ⟨_, _, pageAt_of_internalAt hok.internalAt, pageAt_setInternal_self _ _,
        shrunk_remove page triple.1⟩
      (fun q hq => hpn.trans (hdel q hq)) h₂
    refine ⟨hf₂, fun q hq => ?_, fun h' => absurd h' hnotP⟩
    split at hq
    · rcases List.mem_insert_iff.mp hq with rfl | hq
      · exact hpP
      · exact hdel₂ q hq
    · exact hdel₂ q hq

/-! ## The calls -/

omit [Inhabited V] in
/-- A well-formed tree is not empty: its root is a page `NewPage` gave out. -/
theorem isEmpty_eq_false (hwf : t.WellFormed) : t.isEmpty = false := by
  simpa [isEmpty] using ((goodAt_root hwf).allocated (.refl _)).1

omit [Inhabited V] in
/-- A page above `P` on a chain of links is neither under `P` nor new, so a call whose changes
stay under `P` or at new pages leaves it as it was. -/
theorem Frame.pageAt_above {P q : Int} {u : BPlusTree V}
    (h : Frame (fun q => t.Reaches P q ∨ t.store.nextPageId ≤ q) t u)
    (hq : Relation.TransGen t.Link q P) : u.pageAt q = t.pageAt q := by
  obtain ⟨c, ⟨page, hok, i, hi, rfl⟩, hcP⟩ := Relation.TransGen.head'_iff.mp hq
  refine h.pageAt q ?_
  rintro (hPq | hfresh)
  · exact hok.not_reaches i hi ((reaches_of_reflTransGen hcP).trans hPq)
  · exact absurd hfresh (Int.not_le.mpr (hok.allocated q (.refl _)).2)

/-- `Insert(key, value)` through an insert-safe page `P` of the key's search path changes only
pages under `P` and new pages; when `P` is the leaf, it changes the leaf alone. -/
theorem insert_frame (hwf : t.WellFormed) (h3 : 3 ≤ t.internalMaxSize) {key P : Int}
    {n fuel : Nat} {pageP : TreePage V} {value : V} {b : Bool} {t' : BPlusTree V}
    (hpath : P ∈ t.searchPath key n) (hP : t.pageAt P = some pageP)
    (hsafe : pageP.isPageSafe .insert = true) (h : t.insert key value fuel = some (b, t')) :
    Frame (fun q => t.Reaches P q ∨ t.store.nextPageId ≤ q) t t' ∧
      (pageP.isLeafPage = true → Frame (· = P) t t') := by
  rw [insert, isEmpty_eq_false hwf, if_neg Bool.false_ne_true] at h
  obtain ⟨leafId, hleafId, -⟩ := Option.bind_eq_some.mp h
  obtain ⟨hchain, _, _, hgood⟩ := link_chain_of_mem_pathFrom h3 (goodAt_root hwf) hpath hleafId
  obtain ⟨hframe, hleaf⟩ :=
    insertIntoLeaf_frame hP hsafe hchain (fun _ => hgood.leaf_maxSize) hleafId h
  refine ⟨hframe, fun hisLeaf => ?_⟩
  obtain rfl := eq_of_reflTransGen_link hP hisLeaf hchain
  exact hleaf rfl

/-- `Remove(key)` through a delete-safe page `P` of the key's search path changes and deletes
only pages under `P`; when `P` is the leaf, it changes the leaf alone and deletes nothing. -/
theorem remove_frame (hwf : t.WellFormed) (h3 : 3 ≤ t.internalMaxSize) {key P : Int}
    {n fuel : Nat} {pageP : TreePage V} {t' : BPlusTree V} {deleted : List Int}
    (hpath : P ∈ t.searchPath key n) (hP : t.pageAt P = some pageP)
    (hsafe : pageP.isPageSafe .delete = true) (h : t.remove key fuel = some (t', deleted)) :
    Frame (t.Reaches P) t t' ∧ (∀ q ∈ deleted, t.Reaches P q) ∧
      (pageP.isLeafPage = true → deleted = [] ∧ Frame (· = P) t t') := by
  simp only [remove, isEmpty_eq_false hwf, Bool.false_eq_true, ↓reduceIte, Option.bind_eq_bind]
    at h
  obtain ⟨leafId, hleafId, h⟩ := Option.bind_eq_some.mp h
  obtain ⟨leaf, hleaf, h⟩ := Option.bind_eq_some.mp h
  obtain ⟨hchain, _, _, hgood⟩ := link_chain_of_mem_pathFrom h3 (goodAt_root hwf) hpath hleafId
  have hLP : t.Reaches P leafId := reaches_of_reflTransGen hchain
  have hframe₁ : Frame (· = leafId) t (t.setLeaf leafId (leaf.remove key).1) :=
    frame_setPage (S := (· = leafId)) rfl _
  split at h
  · obtain ⟨rfl, rfl⟩ := Prod.mk.inj (Option.some.inj h).symm
    exact ⟨hframe₁.mono fun q hq => hq ▸ hLP, fun q hq => (List.not_mem_nil q hq).elim,
      fun hisLeaf => ⟨rfl, eq_of_reflTransGen_link hP hisLeaf hchain ▸ hframe₁⟩⟩
  obtain ⟨⟨b, t₂, deleted₂⟩, hclimb, h⟩ := Option.bind_eq_some.mp h
  obtain ⟨rfl, rfl⟩ := Prod.mk.inj (Option.some.inj h).symm
  have hhead := leaf.remove_header key
  have hshrunk : Shrunk (.leaf leaf) (.leaf (leaf.remove key).1) := by
    simp only [Shrunk, hhead, true_and]
    rcases leaf.remove_size key with h' | h' <;> omega
  obtain ⟨hf₂, hdel₂, hstop⟩ := coalesceOrRedistribute_frame hP hsafe fuel hchain
    (hframe₁.mono fun q hq => hq ▸ .refl _)
    ⟨_, _, pageAt_of_leafAt hleaf, pageAt_setLeaf_self _ _, hshrunk⟩
    (fun q hq => (List.not_mem_nil q hq).elim) hclimb
  have hpid : (leaf.remove key).1.header.pageId = leafId := by
    obtain ⟨page, hpage, hid, -⟩ := hgood.header
    rw [pageAt_of_leafAt hleaf, Option.some.injEq] at hpage
    subst hpage
    simpa [hhead] using hid
  have hdel₃ : ∀ q ∈ (if b then deleted₂.insert (leaf.remove key).1.header.pageId else deleted₂),
      t.Reaches P q := by
    intro q hq
    split at hq
    · rcases List.mem_insert_iff.mp hq with rfl | hq
      · exact hpid ▸ hLP
      · exact hdel₂ q hq
    · exact hdel₂ q hq
  refine ⟨hf₂.trans (frame_foldl_deletePage hdel₃), hdel₃, fun hisLeaf => ?_⟩
  obtain rfl := eq_of_reflTransGen_link hP hisLeaf hchain
  obtain ⟨rfl, rfl, rfl⟩ := hstop rfl
  exact ⟨rfl, hframe₁⟩

/-- On a well-formed tree with `internal_max_size` at least 3, let `P` be a page on the search
path of `key` that `IsPageSafe` calls safe for the operation.  `Insert(key, value)` changes only
pages under `P` and pages `NewPage` gives out during the call; `Remove(key)` changes and deletes
only pages under `P`.  No page above `P` changes, and `root_page_id_` and the header page stay as
they were (`Frame`).  When `P` is the leaf, it is the only page either call changes, and `Remove`
deletes no page. -/
theorem safe_page_bounds_changes (hwf : t.WellFormed) (h3 : 3 ≤ t.internalMaxSize) {key P : Int}
    {n : Nat} {pageP : TreePage V} (hpath : P ∈ t.searchPath key n)
    (hP : t.pageAt P = some pageP) :
    (pageP.isPageSafe .insert = true → ∀ (value : V) (fuel : Nat) (b : Bool) (t' : BPlusTree V),
      t.insert key value fuel = some (b, t') →
        Frame (fun q => t.Reaches P q ∨ t.store.nextPageId ≤ q) t t' ∧
        (∀ q, Relation.TransGen t.Link q P → t'.pageAt q = t.pageAt q) ∧
        (pageP.isLeafPage = true → Frame (· = P) t t')) ∧
    (pageP.isPageSafe .delete = true → ∀ (fuel : Nat) (t' : BPlusTree V) (deleted : List Int),
      t.remove key fuel = some (t', deleted) →
        Frame (t.Reaches P) t t' ∧ (∀ q ∈ deleted, t.Reaches P q) ∧
        (∀ q, Relation.TransGen t.Link q P → t'.pageAt q = t.pageAt q) ∧
        (pageP.isLeafPage = true → deleted = [] ∧ Frame (· = P) t t')) := by
  constructor
  · intro hsafe value fuel b t' h
    obtain ⟨hframe, hleaf⟩ := insert_frame hwf h3 hpath hP hsafe h
    exact ⟨hframe, fun _ => hframe.pageAt_above, hleaf⟩
  · intro hsafe fuel t' deleted h
    obtain ⟨hframe, hdel, hleaf⟩ := remove_frame hwf h3 hpath hP hsafe h
    exact ⟨hframe, hdel, fun _ => (hframe.mono fun _ => .inl).pageAt_above, hleaf⟩

/-- A root over the leaves `[1, 2, 3]` and `[4, 5, 6, 7]` with `leaf_max_size` 6: the second leaf
is safe for both operations, and `Insert(8)` and `Remove(5)` change it alone. -/
theorem safe_leaf_changes_alone :
    let t : BPlusTree Nat := ⟨PageStore.ofPages
      [(1, .internal ⟨⟨2, 3, invalidPageId, 1⟩, [(0, 2), (4, 3)]⟩),
        (2, .leaf ⟨⟨3, 6, 1, 2⟩, 3, [(1, 10), (2, 20), (3, 30)]⟩),
        (3, .leaf ⟨⟨4, 6, 1, 3⟩, invalidPageId, [(4, 40), (5, 50), (6, 60), (7, 70)]⟩)] 4,
      1, 6, 3, [1]⟩
    t.WellFormed ∧ (∃ t₁, t.insert 8 80 3 = some (true, t₁) ∧ Frame (· = 3) t t₁) ∧
      ∃ t₂, t.remove 5 3 = some (t₂, []) ∧ Frame (· = 3) t t₂ := by
  intro t
  have hwf : t.WellFormed := ⟨2, _, rfl, by decide, by decide⟩
  have hins := (safe_page_bounds_changes hwf (by decide)
    (show (3 : Int) ∈ t.searchPath 8 2 by decide) rfl).1 (by decide) 80 3 true _ rfl
  have hrem := (safe_page_bounds_changes hwf (by decide)
    (show (3 : Int) ∈ t.searchPath 5 2 by decide) rfl).2 (by decide) 3 _ [] rfl
  exact ⟨hwf, ⟨_, rfl, hins.2.2 rfl⟩, _, rfl, (hrem.2.2.2 rfl).2⟩

end BPlusTree

end Bustub
