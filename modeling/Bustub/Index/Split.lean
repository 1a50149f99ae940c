import Bustub.Index.PageInsert
import Bustub.Index.Frame

/-!
# What a split writes

`Frame` bounds the pages a step may change.  The insert proof needs more of the steps that split
a page: that they succeed when the pages they read are there, and what they write.

*Internal pages.*  `CopyNFrom`'s loop sets the parent of each child it walks
(`reparentSlots_eq_some`); `CopyNFrom` into a new page gives it the pairs, and their children the
page as parent (`internalCopyNFrom_new`); `Split` of an internal page keeps its first
`GetMinSize()` pairs and moves the rest to a new page under the same parent
(`splitInternal_eq_some`).

*Leaves.*  `Split` of a leaf keeps its first `GetMinSize()` pairs and moves the rest to a new leaf
(`splitLeaf_eq`).

*The new root.*  A root that splits gets a new internal root over the two halves
(`insertIntoParent_root`).
-/

namespace Bustub

@[simp] theorem TreePage.setParentPageId_setParentPageId {V : Type} (x y : Int)
    (page : TreePage V) :
    (page.setParentPageId x).setParentPageId y = page.setParentPageId y := by
  cases page <;> rfl

namespace BPlusTree

variable {V : Type} {t : BPlusTree V}

theorem setParentPageId_of_pageAt {q x : Int} {page : TreePage V} (hq : t.pageAt q = some page) :
    t.setParentPageId q x = some (t.setPage q (page.setParentPageId x)) := by
  simp [setParentPageId, hq]

/-! ## Internal pages -/

/-- `CopyNFrom`'s loop, over children that are all there and none the page itself, succeeds and
sets the parent of each to the page. -/
theorem reparentSlots_eq_some {s : Int} {page : InternalPage} (hpid : page.header.pageId = s) :
    ∀ {n first : Nat} {t : BPlusTree V}, t.internalAt s = some page →
      (∀ j, first ≤ j → j < first + n →
        page.valueAt j ≠ s ∧ (t.pageAt (page.valueAt j)).isSome) →
      ∃ t', t.reparentSlots s first n = some t' ∧
        Frame (fun q => ∃ j, first ≤ j ∧ j < first + n ∧ q = page.valueAt j) t t' ∧
        t'.store.nextPageId = t.store.nextPageId ∧
        ∀ j, first ≤ j → j < first + n →
          t'.pageAt (page.valueAt j) = (t.pageAt (page.valueAt j)).map (TreePage.setParentPageId s)
  | 0, first, t, _, _ => ⟨t, rfl, Frame.refl _ _, rfl, fun j h₁ h₂ => absurd h₂ (by omega)⟩
  | n + 1, first, t, hs, hvals => by
    obtain ⟨hne, hsome⟩ := hvals first (Nat.le_refl _) (by omega)
    obtain ⟨pg, hpg⟩ := Option.isSome_iff_exists.mp hsome
    have hs₁ : (t.setPage (page.valueAt first) (pg.setParentPageId s)).internalAt s = some page :=
      (internalAt_setPage_ne t (Ne.symm hne) _).trans hs
    have hvals₁ : ∀ j, first + 1 ≤ j → j < first + 1 + n → page.valueAt j ≠ s ∧
        ((t.setPage (page.valueAt first) (pg.setParentPageId s)).pageAt (page.valueAt j)).isSome :=
      fun j h₁ h₂ => ⟨(hvals j (by omega) (by omega)).1, by
        rw [pageAt_setPage]
        split
        · rfl
        · exact (hvals j (by omega) (by omega)).2⟩
    obtain ⟨t', ht', hframe, hnext, hset⟩ := reparentSlots_eq_some hpid hs₁ hvals₁
    refine ⟨t', ?_, ?_, by rw [hnext]; rfl, fun j h₁ h₂ => ?_⟩
    · simp only [reparentSlots, hs, hpid, Option.bind_eq_bind, Option.some_bind,
        setParentPageId_of_pageAt hpg, ht']
    · refine (frame_setPage ⟨first, Nat.le_refl _, by omega, rfl⟩ _).trans (hframe.mono ?_)
      rintro q ⟨j, h₁, h₂, rfl⟩
      exact ⟨j, by omega, by omega, rfl⟩
    · by_cases hlater : ∃ j', first + 1 ≤ j' ∧ j' < first + 1 + n ∧ page.valueAt j = page.valueAt j'
      · obtain ⟨j', h₁', h₂', heq⟩ := hlater
        rw [heq, hset j' h₁' h₂', pageAt_setPage]
        split
        · rename_i hfirst
          rw [hfirst, hpg]
          simp
        · rfl
      · have hj : j = first := by
          by_contra hj
          exact hlater ⟨j, by omega, by omega, rfl⟩
        subst hj
        rw [hframe.pageAt _ hlater, pageAt_setPage, if_pos rfl, hpg]
        rfl

/-- `CopyNFrom(items)` into a new page `s`, over children that are all there and none `s`, gives
the page the pairs, and each child `s` as its parent. -/
theorem internalCopyNFrom_new {s parentId : Int} {maxSize : Nat} {items : List (Int × Int)}
    (hs : t.internalAt s = some (InternalPage.new s parentId maxSize))
    (hitems : ∀ x ∈ items, x.2 ≠ s ∧ (t.pageAt x.2).isSome) :
    ∃ t', t.internalCopyNFrom s items = some t' ∧
      t'.internalAt s = some ⟨⟨items.length, maxSize, parentId, s⟩, items⟩ ∧
      Frame (fun q => q = s ∨ ∃ x ∈ items, q = x.2) t t' ∧
      t'.store.nextPageId = t.store.nextPageId ∧
      ∀ x ∈ items, t'.pageAt x.2 = (t.pageAt x.2).map (TreePage.setParentPageId s) := by
  have hval : ∀ j (hj : j < items.length),
      (⟨⟨0, maxSize, parentId, s⟩, items⟩ : InternalPage).valueAt j = items[j].2 := fun j hj => by
    simp [InternalPage.valueAt, Slots.read_eq_getElem hj]
  have hmoved : ∀ q, (∃ j, 0 ≤ j ∧ j < 0 + items.length ∧
      q = (⟨⟨0, maxSize, parentId, s⟩, items⟩ : InternalPage).valueAt j) → ∃ x ∈ items, q = x.2 := by
    rintro q ⟨j, -, hj, rfl⟩
    have hj' : j < items.length := by omega
    exact ⟨items[j], List.getElem_mem hj', hval j hj'⟩
  obtain ⟨t₂, h₂, hframe, hnext, hset⟩ := @reparentSlots_eq_some V s ⟨⟨0, maxSize, parentId, s⟩, items⟩
    rfl items.length 0 (t.setInternal s ⟨⟨0, maxSize, parentId, s⟩, items⟩)
    (internalAt_setInternal_self _ _) fun j _ hj => by
      have hj' : j < items.length := by omega
      rw [hval j hj']
      obtain ⟨hne, hsome⟩ := hitems _ (List.getElem_mem hj')
      exact ⟨hne, by rwa [setInternal, pageAt_setPage, if_neg hne]⟩
  have hs₂ : t₂.internalAt s = some ⟨⟨0, maxSize, parentId, s⟩, items⟩ := by
    rw [hframe.internalAt fun hq => by
      obtain ⟨x, hx, heq⟩ := hmoved s hq
      exact (hitems x hx).1 heq.symm, internalAt_setInternal_self]
  refine ⟨t₂.setInternal s ⟨⟨items.length, maxSize, parentId, s⟩, items⟩, ?_,
    internalAt_setInternal_self _ _, ?_, by simp [hnext, setInternal], fun x hx => ?_⟩
  · simp only [internalCopyNFrom, hs, Option.bind_eq_bind, Option.some_bind, InternalPage.new]
    rw [show Slots.copyFrom ([] : List (Int × Int)) 0 items = items from Slots.copyFrom_length [] items,
      h₂, Option.some_bind, hs₂, Option.some_bind, Nat.zero_add]
    rfl
  · exact ((frame_setPage (.inl rfl) _).trans (hframe.mono fun q hq => .inr (hmoved q hq))).trans
      (frame_setPage (.inl rfl) _)
  · obtain ⟨j, hj, rfl⟩ := List.mem_iff_getElem.mp hx
    have hne := (hitems _ hx).1
    rw [setInternal, pageAt_setPage, if_neg hne, ← hval j hj, hset j (Nat.zero_le _) (by omega),
      hval j hj, setInternal, pageAt_setPage, if_neg hne]

/-- `MoveHalfTo(sibling)` of an internal page `p` into a new page `s`, over moved children that
are all there and neither page, moves the pairs from slot `GetMinSize()` on to `s`, with their
children, and keeps the others. -/
theorem internalMoveHalfTo_new {p s parentId : Int} {maxSize : Nat} {page : InternalPage}
    {items : List (Int × Int)} (hps : p ≠ s) (hp : t.internalAt p = some page)
    (hs : t.internalAt s = some (InternalPage.new s parentId maxSize))
    (hdef : Slots.slots page.array ((page.header.maxSize + 1) / 2)
      (page.header.maxSize - (page.header.maxSize + 1) / 2 + 1) = items)
    (hitems : ∀ x ∈ items, x.2 ≠ s ∧ x.2 ≠ p ∧ (t.pageAt x.2).isSome) :
    ∃ t', t.internalMoveHalfTo p s = some t' ∧
      t'.internalAt p = some { page with header := { page.header with size := page.header.size -
        (page.header.maxSize - (page.header.maxSize + 1) / 2 + 1) } } ∧
      t'.internalAt s = some ⟨⟨items.length, maxSize, parentId, s⟩, items⟩ ∧
      Frame (fun q => q = p ∨ q = s ∨ ∃ x ∈ items, q = x.2) t t' ∧
      t'.store.nextPageId = t.store.nextPageId ∧
      ∀ x ∈ items, t'.pageAt x.2 = (t.pageAt x.2).map (TreePage.setParentPageId s) := by
  obtain ⟨t₁, h₁, hs₁, hframe, hnext, hset⟩ :=
    internalCopyNFrom_new hs fun x hx => ⟨(hitems x hx).1, (hitems x hx).2.2⟩
  have hp₁ : t₁.internalAt p = some page := by
    rw [hframe.internalAt fun hq => ?_, hp]
    rcases hq with hq | ⟨x, hx, hq⟩
    · exact hps hq
    · exact (hitems x hx).2.1 hq.symm
  refine ⟨_, ?_, internalAt_setInternal_self _ _, (internalAt_setInternal_ne _ hps.symm _).trans hs₁,
    (hframe.mono fun q hq => .inr hq).trans (frame_setPage (.inl rfl) _), by simp [hnext, setInternal],
    fun x hx => ?_⟩
  · simp only [internalMoveHalfTo, hp, Option.bind_eq_bind, Option.some_bind,
      TreePage.getMinSize_internal, hdef, h₁, hp₁]
    rfl
  · rw [setInternal, pageAt_setPage, if_neg (hitems x hx).2.1, hset x hx]

/-- `Split(node)` of an internal page `p`, whose moved children are all there and neither `p` nor
the new page: the new page, at the id `NewPage` gives, under `p`'s parent, takes the pairs from
slot `GetMinSize()` on, with their children, and `p` keeps the others. -/
theorem splitInternal_eq_some {p : Int} {page : InternalPage} {items : List (Int × Int)}
    (hp : t.internalAt p = some page) (hfresh : p ≠ t.store.nextPageId)
    (hdef : Slots.slots page.array ((page.header.maxSize + 1) / 2)
      (page.header.maxSize - (page.header.maxSize + 1) / 2 + 1) = items)
    (hitems : ∀ x ∈ items, x.2 ≠ t.store.nextPageId ∧ x.2 ≠ p ∧ (t.pageAt x.2).isSome) :
    ∃ t', t.splitInternal p = some (t.store.nextPageId, t') ∧
      t'.internalAt p = some { page with header := { page.header with size := page.header.size -
        (page.header.maxSize - (page.header.maxSize + 1) / 2 + 1) } } ∧
      t'.internalAt t.store.nextPageId = some ⟨⟨items.length, t.internalMaxSize,
        page.header.parentPageId, t.store.nextPageId⟩, items⟩ ∧
      Frame (fun q => q = p ∨ q = t.store.nextPageId ∨ ∃ x ∈ items, q = x.2) t t' ∧
      t'.store.nextPageId = t.store.nextPageId + 1 ∧
      ∀ x ∈ items,
        t'.pageAt x.2 = (t.pageAt x.2).map (TreePage.setParentPageId t.store.nextPageId) := by
  set t₁ := t.newPage.2.setInternal t.store.nextPageId
    (InternalPage.new t.store.nextPageId page.header.parentPageId t.internalMaxSize) with ht₁
  have hp₁ : t₁.internalAt p = some page := (internalAt_setPage_ne _ hfresh _).trans hp
  have hpage₁ : ∀ q, q ≠ t.store.nextPageId → t₁.pageAt q = t.pageAt q := fun q hq => by
    rw [ht₁, setInternal, pageAt_setPage, if_neg hq]
    rfl
  obtain ⟨t', h', hp', hs', hframe, hnext, hset⟩ := internalMoveHalfTo_new hfresh hp₁
    (internalAt_setInternal_self _ _) hdef fun x hx =>
      ⟨(hitems x hx).1, (hitems x hx).2.1, by rw [hpage₁ _ (hitems x hx).1]; exact (hitems x hx).2.2⟩
  refine ⟨t', ?_, hp', hs', (frame_newPage.trans (frame_setPage (.inr (.inl rfl)) _)).trans
    (hframe.mono fun q hq => ?_), by rw [hnext]; rfl, fun x hx => ?_⟩
  · simp only [splitInternal, internalAt_newPage, hp, Option.bind_eq_bind, Option.some_bind]
    change (t₁.internalMoveHalfTo p t.store.nextPageId).bind _ = _
    rw [h']
    rfl
  · rcases hq with hq | hq | hq
    · exact .inl hq
    · exact .inr (.inl hq)
    · exact .inr (.inr hq)
  · rw [hset x hx, hpage₁ _ (hitems x hx).1]

/-! ## The new root -/

/-- `InsertIntoParent` at a root that split: a new internal root at the id `NewPage` gives, over
the two halves, which take it as their parent. -/
theorem insertIntoParent_root {fuel : Nat} {c key r : Int} {left right : TreePage V}
    (hc : t.pageAt c = some left) (hr : t.pageAt r = some right) (hroot : left.isRootPage = true)
    (hcid : left.header.pageId = c) (hrid : right.header.pageId = r)
    (hcfresh : c ≠ t.store.nextPageId) (hrfresh : r ≠ t.store.nextPageId) (hcr : r ≠ c) :
    t.insertIntoParent (fuel + 1) c key r = some
      ((((({ t.newPage.2 with rootPageId := t.store.nextPageId } : BPlusTree V).setInternal
        t.store.nextPageId ((InternalPage.new t.store.nextPageId invalidPageId
          t.internalMaxSize).populateNewRoot c key r)).setPage c
        (left.setParentPageId t.store.nextPageId)).setPage r
        (right.setParentPageId t.store.nextPageId)).updateRootPageId) := by
  have hc' : t.store.pages c = some left := hc
  have hr' : t.store.pages r = some right := hr
  simp only [insertIntoParent, hc, hr, hroot, hcid, hrid, Option.bind_eq_bind, Option.some_bind,
    if_true, setParentPageId, setInternal, BPlusTree.pageAt, newPage, setPage,
    Function.update_apply, hcfresh, hrfresh, hcr, if_false, hc', hr', Option.pure_def]

/-- `InsertIntoParent` below the root: the parent takes the pair right after the child `c`, and
splits in turn once it holds more than `internal_max_size_` children. -/
theorem insertIntoParent_child {fuel : Nat} {c key r p : Int} {left right : TreePage V}
    {page : InternalPage} (hc : t.pageAt c = some left) (hr : t.pageAt r = some right)
    (hroot : left.isRootPage = false) (hparent : left.header.parentPageId = p)
    (hp : t.internalAt p = some page) (hcid : left.header.pageId = c)
    (hrid : right.header.pageId = r) :
    t.insertIntoParent (fuel + 1) c key r =
      if (page.insert c key r).2 ≤ t.internalMaxSize then
        some (t.setInternal p (page.insert c key r).1)
      else ((t.setInternal p (page.insert c key r).1).splitInternal p).bind fun x =>
        (x.2.internalAt x.1).bind fun sibling => x.2.insertIntoParent fuel p (sibling.keyAt 0) x.1 := by
  simp only [insertIntoParent, hc, hr, hroot, hparent, hp, hcid, hrid, Option.bind_eq_bind,
    Option.some_bind, Bool.false_eq_true, if_false]
  rfl

/-! ## Leaves -/

section Leaf

variable [Inhabited V]

/-- `Split(node)` of a leaf `p`: the new leaf, at the id `NewPage` gives, under `p`'s parent,
takes the pairs from slot `GetMinSize()` on, and `p` keeps the others. -/
theorem splitLeaf_eq {p : Int} {page : LeafPage V} (hp : t.leafAt p = some page)
    (hfresh : p ≠ t.store.nextPageId) :
    t.splitLeaf p = some (t.store.nextPageId,
      (((t.newPage.2.setLeaf t.store.nextPageId (LeafPage.new t.store.nextPageId
        page.header.parentPageId t.leafMaxSize)).setLeaf t.store.nextPageId
        ((LeafPage.new t.store.nextPageId page.header.parentPageId t.leafMaxSize).copyNFrom
          (Slots.slots page.array (page.header.maxSize / 2)
            (page.header.maxSize - page.header.maxSize / 2)))).setLeaf p
        { page with header := { page.header with size := page.header.size -
          (page.header.maxSize - page.header.maxSize / 2) } })) := by
  simp only [splitLeaf, leafMoveHalfTo, leafAt_newPage, hp, Option.bind_eq_bind, Option.some_bind,
    show t.newPage.1 = t.store.nextPageId from rfl, leafAt_setLeaf_ne _ hfresh, leafAt_setLeaf_self,
    TreePage.getMinSize_leaf]
  rfl

/-- The split branch of `InsertIntoLeaf(key, value)`: the leaf that reached `leaf_max_size_`
keeps its first `GetMinSize()` pairs and links to a new leaf, at the id `NewPage` gives, which
takes the others and the old link; then the new leaf goes into the parent, after the old one,
under the key in its slot 0. -/
theorem insertIntoLeaf_split {key : Int} {value : V} {fuel : Nat} {leafId : Int}
    {leaf leaf' : LeafPage V} (hleafId : t.getLeafPage key fuel = some leafId)
    (hleaf : t.leafAt leafId = some leaf) (hfresh : leafId ≠ t.store.nextPageId)
    (hins : leaf.insert key value = (leaf', leaf.header.size + 1))
    (hfull : ¬ leaf.header.size + 1 < t.leafMaxSize) :
    ∃ u, t.insertIntoLeaf key value fuel =
        ((u.insertIntoParent fuel leafId
          (((LeafPage.new t.store.nextPageId leaf'.header.parentPageId t.leafMaxSize).copyNFrom
            (Slots.slots leaf'.array (leaf'.header.maxSize / 2)
              (leaf'.header.maxSize - leaf'.header.maxSize / 2))).keyAt 0)
          t.store.nextPageId).bind fun u' => some (true, u')) ∧
      Frame (fun q => q = leafId ∨ q = t.store.nextPageId) t u ∧
      u.store.nextPageId = t.store.nextPageId + 1 ∧
      u.pageAt leafId = some (.leaf { leaf' with
        header := { leaf'.header with size := leaf'.header.size -
          (leaf'.header.maxSize - leaf'.header.maxSize / 2) },
        nextPageId := t.store.nextPageId }) ∧
      u.pageAt t.store.nextPageId = some (.leaf
        { (LeafPage.new t.store.nextPageId leaf'.header.parentPageId t.leafMaxSize).copyNFrom
            (Slots.slots leaf'.array (leaf'.header.maxSize / 2)
              (leaf'.header.maxSize - leaf'.header.maxSize / 2)) with
          nextPageId := leaf'.nextPageId }) := by
  have hfresh' : leafId ≠ (t.setLeaf leafId leaf').store.nextPageId := hfresh
  refine ⟨?u, ?eq, ?_, ?_, ?_, ?_⟩
  case eq =>
    simp only [insertIntoLeaf, hleafId, hleaf, hins, Option.bind_eq_bind, Option.some_bind,
      show leaf.header.size ≠ leaf.header.size + 1 by omega, if_false]
    rw [if_neg (show ¬ leaf.header.size + 1 < (t.setLeaf leafId leaf').leafMaxSize from hfull),
      splitLeaf_eq (leafAt_setLeaf_self _ _) hfresh']
    simp only [Option.some_bind, leafAt_setLeaf_ne _ hfresh, leafAt_setLeaf_ne _ (Ne.symm hfresh),
      leafAt_setLeaf_self, nextPageId_setLeaf]
    exact rfl
  · exact ((((((frame_setPage (.inl rfl) _).trans frame_newPage).trans
      (frame_setPage (.inr rfl) _)).trans (frame_setPage (.inr rfl) _)).trans
      (frame_setPage (.inl rfl) _)).trans (frame_setPage (.inr rfl) _)).trans
      (frame_setPage (.inl rfl) _)
  · rfl
  · simp [setLeaf, hfresh, LeafPage.copyNFrom, LeafPage.new]
  · simp [setLeaf, Ne.symm hfresh, LeafPage.copyNFrom, LeafPage.new]
    rfl

end Leaf

end BPlusTree

end Bustub
