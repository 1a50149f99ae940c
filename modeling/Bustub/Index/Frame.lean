import Bustub.Index.BPlusTree

/-!
# What a call leaves alone

A call of the tree writes some pages and leaves every other page alone.  `Frame S t t'` says
that `t'` differs from `t` only in pages that `S` holds: every other page, `root_page_id_`, the
header page and the page sizes of the tree are as they were, and the next page id has not gone
back.  Each page operation has a lemma naming the pages it may touch, and the frame of a call is
the composition of the frames of its steps (`Frame.trans`).
-/

namespace Bustub

namespace BPlusTree

variable {V : Type}

/-- `t'` is `t` with at most the pages `S` holds changed. -/
structure Frame (S : Int → Prop) (t t' : BPlusTree V) : Prop where
  pageAt : ∀ q, ¬ S q → t'.pageAt q = t.pageAt q
  rootPageId : t'.rootPageId = t.rootPageId
  headerUpdates : t'.headerUpdates = t.headerUpdates
  leafMaxSize : t'.leafMaxSize = t.leafMaxSize
  internalMaxSize : t'.internalMaxSize = t.internalMaxSize
  nextPageId : t.store.nextPageId ≤ t'.store.nextPageId

namespace Frame

variable {S T : Int → Prop} {t t' t'' : BPlusTree V}

theorem refl (S : Int → Prop) (t : BPlusTree V) : Frame S t t :=
  ⟨fun _ _ => rfl, rfl, rfl, rfl, rfl, Int.le_refl _⟩

theorem trans (h : Frame S t t') (h' : Frame S t' t'') : Frame S t t'' :=
  ⟨fun q hq => (h'.pageAt q hq).trans (h.pageAt q hq), h'.rootPageId.trans h.rootPageId,
    h'.headerUpdates.trans h.headerUpdates, h'.leafMaxSize.trans h.leafMaxSize,
    h'.internalMaxSize.trans h.internalMaxSize, Int.le_trans h.nextPageId h'.nextPageId⟩

theorem mono (h : Frame S t t') (hST : ∀ q, S q → T q) : Frame T t t' :=
  ⟨fun q hq => h.pageAt q fun hS => hq (hST q hS), h.rootPageId, h.headerUpdates, h.leafMaxSize,
    h.internalMaxSize, h.nextPageId⟩

end Frame

variable {S : Int → Prop} {t t' : BPlusTree V}

@[simp] theorem pageAt_setPage (t : BPlusTree V) (p q : Int) (page : TreePage V) :
    (t.setPage p page).pageAt q = if q = p then some page else t.pageAt q := by
  simp only [pageAt, setPage, Function.update_apply]

theorem frame_setPage {p : Int} (hp : S p) (page : TreePage V) : Frame S t (t.setPage p page) :=
  ⟨fun q hq => by rw [pageAt_setPage, if_neg fun (h : q = p) => hq (h ▸ hp)], rfl, rfl, rfl, rfl,
    Int.le_refl _⟩

theorem frame_newPage : Frame S t t.newPage.2 :=
  ⟨fun _ _ => rfl, rfl, rfl, rfl, rfl, by simp only [newPage]; omega⟩

theorem frame_setParentPageId {q p : Int} (h : t.setParentPageId q p = some t') (hq : S q) :
    Frame S t t' := by
  obtain ⟨page, -, h⟩ := Option.bind_eq_some.mp h
  cases Option.some.inj h
  exact frame_setPage hq _

theorem Frame.internalAt (h : Frame S t t') {q : Int} (hq : ¬ S q) :
    t'.internalAt q = t.internalAt q := by
  simp only [BPlusTree.internalAt, h.pageAt q hq]

theorem Frame.leafAt (h : Frame S t t') {q : Int} (hq : ¬ S q) : t'.leafAt q = t.leafAt q := by
  simp only [BPlusTree.leafAt, h.pageAt q hq]

/-! ## Reading back what was written -/

section

variable (t : BPlusTree V) {p q : Int}

theorem internalAt_setPage_ne (h : q ≠ p) (page : TreePage V) :
    (t.setPage p page).internalAt q = t.internalAt q := by
  simp only [internalAt, pageAt_setPage, if_neg h]

theorem leafAt_setPage_ne (h : q ≠ p) (page : TreePage V) :
    (t.setPage p page).leafAt q = t.leafAt q := by
  simp only [leafAt, pageAt_setPage, if_neg h]

@[simp] theorem nextPageId_setPage (page : TreePage V) :
    (t.setPage p page).store.nextPageId = t.store.nextPageId := rfl

@[simp] theorem nextPageId_setLeaf (page : LeafPage V) :
    (t.setLeaf p page).store.nextPageId = t.store.nextPageId := rfl

@[simp] theorem nextPageId_setInternal (page : InternalPage) :
    (t.setInternal p page).store.nextPageId = t.store.nextPageId := rfl

@[simp] theorem internalAt_setInternal_ne (h : q ≠ p) (page : InternalPage) :
    (t.setInternal p page).internalAt q = t.internalAt q :=
  internalAt_setPage_ne t h _

@[simp] theorem leafAt_setLeaf_ne (h : q ≠ p) (page : LeafPage V) :
    (t.setLeaf p page).leafAt q = t.leafAt q :=
  leafAt_setPage_ne t h _

@[simp] theorem pageAt_setLeaf_self (page : LeafPage V) :
    (t.setLeaf p page).pageAt p = some (.leaf page) := by
  simp [setLeaf]

theorem pageAt_setLeaf_ne (h : q ≠ p) (page : LeafPage V) :
    (t.setLeaf p page).pageAt q = t.pageAt q := by
  simp [setLeaf, h]

@[simp] theorem pageAt_setInternal_self (page : InternalPage) :
    (t.setInternal p page).pageAt p = some (.internal page) := by
  simp [setInternal]

@[simp] theorem internalAt_setInternal_self (page : InternalPage) :
    (t.setInternal p page).internalAt p = some page := by
  simp [setInternal, internalAt]

@[simp] theorem leafAt_setLeaf_self (page : LeafPage V) : (t.setLeaf p page).leafAt p = some page := by
  simp [setLeaf, leafAt]

@[simp] theorem pageAt_newPage : t.newPage.2.pageAt q = t.pageAt q := rfl

@[simp] theorem internalAt_newPage : t.newPage.2.internalAt q = t.internalAt q := rfl

@[simp] theorem leafAt_newPage : t.newPage.2.leafAt q = t.leafAt q := rfl

end

theorem setParentPageId_eq {q x : Int} (h : t.setParentPageId q x = some t') :
    ∃ page, t.pageAt q = some page ∧ t' = t.setPage q (page.setParentPageId x) := by
  obtain ⟨page, hq, h⟩ := Option.bind_eq_some.mp h
  exact ⟨page, hq, (Option.some.inj h).symm⟩

/-- Setting a parent leaves the slots and the size of every internal page as they were. -/
theorem internalAt_setParentPageId {q x p : Int} (h : t.setParentPageId q x = some t')
    {page : InternalPage} (hp : t.internalAt p = some page) :
    ∃ y, t'.internalAt p = some { page with header := { page.header with parentPageId := y } } := by
  obtain ⟨old, hq, rfl⟩ := setParentPageId_eq h
  by_cases hqp : p = q
  · subst hqp
    rw [pageAt_of_internalAt hp, Option.some.injEq] at hq
    subst hq
    exact ⟨x, internalAt_setInternal_self _ _⟩
  · exact ⟨page.header.parentPageId, (internalAt_setPage_ne t hqp _).trans hp⟩

/-! ## Moving children -/

/-- `CopyNFrom`'s loop changes only the children in the slots it walks, and of the page itself at
most its parent. -/
theorem reparentSlots_spec {p : Int} {page : InternalPage} :
    ∀ {n first : Nat} {t t' : BPlusTree V},
      (∃ y, t.internalAt p = some { page with header := { page.header with parentPageId := y } }) →
      t.reparentSlots p first n = some t' →
      Frame (fun q => ∃ j, first ≤ j ∧ j < first + n ∧ q = page.valueAt j) t t' ∧
        ∃ y, t'.internalAt p = some { page with header := { page.header with parentPageId := y } }
  | 0, _, t, _, hp, h => by
    cases Option.some.inj h
    exact ⟨Frame.refl _ _, hp⟩
  | n + 1, first, t, t', ⟨y, hp⟩, h => by
    simp only [reparentSlots, hp, Option.bind_eq_bind, Option.some_bind] at h
    obtain ⟨t₁, h₁, h₂⟩ := Option.bind_eq_some.mp h
    obtain ⟨hframe₂, hp₂⟩ := reparentSlots_spec (internalAt_setParentPageId h₁ hp) h₂
    refine ⟨Frame.trans ((frame_setParentPageId h₁ rfl).mono ?_) (hframe₂.mono ?_), hp₂⟩
    · rintro q rfl
      exact ⟨first, Nat.le_refl _, by omega, rfl⟩
    · rintro q ⟨j, hj, hj', rfl⟩
      exact ⟨j, by omega, by omega, rfl⟩

/-- `CopyNFrom(items, size, bpm)` of an internal page changes the page, which keeps its id, and
the children the pairs name. -/
theorem internalCopyNFrom_spec {s : Int} {items : List (Int × Int)} {page : InternalPage}
    (hs : t.internalAt s = some page) (h : t.internalCopyNFrom s items = some t') :
    Frame (fun q => q = s ∨ ∃ item ∈ items, q = item.2) t t' ∧
      ∃ page', t'.internalAt s = some page' ∧ page'.header.pageId = page.header.pageId := by
  simp only [internalCopyNFrom, hs, Option.bind_eq_bind, Option.some_bind] at h
  obtain ⟨t₂, h₂, h₃⟩ := Option.bind_eq_some.mp h
  obtain ⟨hframe₂, y, hs₂⟩ := @reparentSlots_spec _ _
    { page with array := Slots.copyFrom page.array page.header.size items } _ _ _ _
    ⟨page.header.parentPageId, internalAt_setInternal_self _ _⟩ h₂
  rw [hs₂, Option.some_bind] at h₃
  cases Option.some.inj h₃
  refine ⟨((frame_setPage (Or.inl rfl) _).trans (hframe₂.mono ?_)).trans
    (frame_setPage (Or.inl rfl) _), _, internalAt_setInternal_self _ _, rfl⟩
  rintro q ⟨j, hj, hj', rfl⟩
  refine Or.inr ⟨_, Slots.read_mem (i := j - page.header.size) (by omega), ?_⟩
  simp only [InternalPage.valueAt, Slots.read_copyFrom, if_pos (And.intro hj hj')]

/-- `MoveHalfTo(sibling, bpm)` of an internal page changes the page, the sibling, which keeps its
id, and the children in the slots up to `GetMaxSize()`; the page keeps all but its size, when it
is none of those children. -/
theorem internalMoveHalfTo_spec {p s : Int} {page sibling : InternalPage} (hps : p ≠ s)
    (hp : t.internalAt p = some page) (hs : t.internalAt s = some sibling)
    (h : t.internalMoveHalfTo p s = some t') :
    Frame (fun q => q = p ∨ q = s ∨ ∃ j ≤ page.header.maxSize, q = page.valueAt j) t t' ∧
      (∃ sibling', t'.internalAt s = some sibling' ∧
        sibling'.header.pageId = sibling.header.pageId) ∧
      ((¬ ∃ j ≤ page.header.maxSize, p = page.valueAt j) →
        t'.internalAt p = some { page with header := { page.header with
          size := page.header.size -
            (page.header.maxSize - (TreePage.internal page : TreePage V).getMinSize + 1) } }) := by
  simp only [internalMoveHalfTo, hp, Option.bind_eq_bind, Option.some_bind] at h
  obtain ⟨t₁, h₁, h₂⟩ := Option.bind_eq_some.mp h
  obtain ⟨hframe₁, sibling', hs₁, hid⟩ := internalCopyNFrom_spec hs h₁
  have hmin := (TreePage.internal page : TreePage V).getMinSize_le_maxSize
  have hmoved : ∀ q, (q = s ∨ ∃ item ∈ Slots.slots page.array
      (TreePage.internal page : TreePage V).getMinSize
      (page.header.maxSize - (TreePage.internal page : TreePage V).getMinSize + 1), q = item.2) →
      q = s ∨ ∃ j ≤ page.header.maxSize, q = page.valueAt j := by
    rintro q (rfl | ⟨_, hitem, rfl⟩)
    · exact .inl rfl
    · obtain ⟨j, hj, rfl⟩ := List.mem_map.mp hitem
      exact .inr ⟨_, by simp only [List.mem_range] at hj; simp only [TreePage.header_internal] at hmin; omega, rfl⟩
  obtain ⟨page₁, hp₁, h₃⟩ := Option.bind_eq_some.mp h₂
  simp only [Option.pure_def, Option.some.injEq] at h₃
  subst h₃
  refine ⟨(hframe₁.mono fun q hq => .inr (hmoved q hq)).trans (frame_setPage (.inl rfl) _),
    ⟨sibling', (internalAt_setPage_ne _ hps.symm _).trans hs₁, hid⟩, fun hnot => ?_⟩
  have hp₁' : t₁.internalAt p = some page := by
    rw [hframe₁.internalAt fun hq => ?_, hp]
    rcases hmoved p hq with hq | hq
    · exact hps hq
    · exact hnot hq
  rw [hp₁', Option.some.injEq] at hp₁
  subst hp₁
  exact internalAt_setInternal_self _ _

/-- `Split(node)` of an internal page: the new page has the id `NewPage` gives, and the changes
are those of `MoveHalfTo` into it. -/
theorem splitInternal_spec {p s : Int} {page : InternalPage} (hp : t.internalAt p = some page)
    (hfresh : p ≠ t.store.nextPageId) (h : t.splitInternal p = some (s, t')) :
    s = t.store.nextPageId ∧ t.store.nextPageId < t'.store.nextPageId ∧
      Frame (fun q => q = p ∨ q = s ∨ ∃ j ≤ page.header.maxSize, q = page.valueAt j) t t' ∧
      (∃ sibling, t'.internalAt s = some sibling ∧ sibling.header.pageId = s) ∧
      ((¬ ∃ j ≤ page.header.maxSize, p = page.valueAt j) →
        t'.internalAt p = some { page with header := { page.header with
          size := page.header.size -
            (page.header.maxSize - (TreePage.internal page : TreePage V).getMinSize + 1) } }) := by
  simp only [splitInternal, internalAt_newPage, hp, Option.bind_eq_bind, Option.some_bind] at h
  obtain ⟨t₁, h₁, h₂⟩ := Option.bind_eq_some.mp h
  simp only [Option.pure_def, Option.some.injEq, Prod.mk.injEq] at h₂
  obtain ⟨rfl, rfl⟩ := h₂
  have hp' : (t.newPage.2.setInternal t.store.nextPageId (InternalPage.new t.store.nextPageId
      page.header.parentPageId t.newPage.2.internalMaxSize)).internalAt p = some page :=
    (internalAt_setPage_ne _ hfresh _).trans hp
  obtain ⟨hframe, ⟨sibling, hs, hid⟩, hkeep⟩ :=
    internalMoveHalfTo_spec hfresh hp' (internalAt_setInternal_self _ _) h₁
  exact ⟨rfl, Int.lt_of_lt_of_le (Int.lt_succ _) hframe.nextPageId,
    ((frame_newPage.trans (frame_setPage (.inr (.inl rfl)) _)).trans hframe), ⟨sibling, hs, hid⟩,
    hkeep⟩

/-! ## Pages deleted and pairs moved by `Remove` -/

/-- `DeletePage(page_id)` changes only the page it deletes. -/
theorem frame_deletePage {q : Int} (hq : S q) : Frame S t (t.deletePage q) :=
  ⟨fun r hr => by
    simp only [pageAt, deletePage, Function.update_apply, if_neg fun h : r = q => hr (h ▸ hq)],
    rfl, rfl, rfl, rfl, Int.le_refl _⟩

theorem frame_foldl_deletePage :
    ∀ {l : List Int} {t : BPlusTree V}, (∀ q ∈ l, S q) → Frame S t (l.foldl deletePage t)
  | [], t, _ => Frame.refl S t
  | q :: l, _, hl =>
    (frame_deletePage (hl q (List.mem_cons_self q l))).trans
      (frame_foldl_deletePage fun r hr => hl r (List.mem_cons_of_mem q hr))

/-- `CopyLastFrom(item, bpm)` of an internal page changes the page and the child it takes. -/
theorem frame_internalCopyLastFrom {x : Int} {item : Int × Int}
    (h : t.internalCopyLastFrom x item = some t') : Frame (fun q => q = x ∨ q = item.2) t t' := by
  simp only [internalCopyLastFrom, Option.bind_eq_bind] at h
  obtain ⟨page, -, h⟩ := Option.bind_eq_some.mp h
  obtain ⟨t₁, h₁, h⟩ := Option.bind_eq_some.mp h
  obtain ⟨page₁, -, h⟩ := Option.bind_eq_some.mp h
  cases Option.some.inj h
  exact ((frame_setPage (.inl rfl) _).trans (frame_setParentPageId h₁ (.inr rfl))).trans
    (frame_setPage (.inl rfl) _)

/-- `CopyFirstFrom(item, bpm)` of an internal page changes the page and the child it takes. -/
theorem frame_internalCopyFirstFrom {x : Int} {item : Int × Int}
    (h : t.internalCopyFirstFrom x item = some t') : Frame (fun q => q = x ∨ q = item.2) t t' := by
  simp only [internalCopyFirstFrom, Option.bind_eq_bind] at h
  obtain ⟨page, -, h⟩ := Option.bind_eq_some.mp h
  obtain ⟨t₁, h₁, h⟩ := Option.bind_eq_some.mp h
  obtain ⟨page₁, -, h⟩ := Option.bind_eq_some.mp h
  cases Option.some.inj h
  exact ((frame_setPage (.inl rfl) _).trans (frame_setParentPageId h₁ (.inr rfl))).trans
    (frame_setPage (.inl rfl) _)

theorem frame_internalCopyNFrom {s : Int} {items : List (Int × Int)}
    (h : t.internalCopyNFrom s items = some t') :
    Frame (fun q => q = s ∨ ∃ item ∈ items, q = item.2) t t' := by
  obtain ⟨page, hs, -⟩ := Option.bind_eq_some.mp h
  exact (internalCopyNFrom_spec hs h).1

/-- `MoveFirstToEnd(sibling, middle_key, bpm)` of an internal page changes the page, the sibling
and the child of its slot 0. -/
theorem frame_internalMoveFirstToEnd {p s middleKey : Int} {page : InternalPage}
    (hp : t.internalAt p = some page) (h : t.internalMoveFirstToEnd p s middleKey = some t') :
    Frame (fun q => q = p ∨ q = s ∨ q = page.valueAt 0) t t' := by
  simp only [internalMoveFirstToEnd, hp, internalAt_setInternal_self, Option.bind_eq_bind,
    Option.some_bind] at h
  obtain ⟨t₁, h₁, h⟩ := Option.bind_eq_some.mp h
  obtain ⟨page₁, -, h⟩ := Option.bind_eq_some.mp h
  cases Option.some.inj h
  refine ((frame_setPage (.inl rfl) _).trans ((frame_internalCopyLastFrom h₁).mono ?_)).trans
    (frame_setPage (.inl rfl) _)
  rintro q (rfl | rfl)
  · exact .inr (.inl rfl)
  · exact .inr (.inr (InternalPage.valueAt_setKeyAt page 0 middleKey 0))

/-- `MoveLastToFront(sibling, middle_key, bpm)` of an internal page changes the page, the sibling
and the child of the page's last slot. -/
theorem frame_internalMoveLastToFront {p s middleKey : Int} (hps : p ≠ s)
    (h : t.internalMoveLastToFront p s middleKey = some t') :
    Frame (fun q => q = p ∨ q = s ∨ ∃ page, t.internalAt p = some page ∧
      q = page.valueAt (page.header.size - 1)) t t' := by
  simp only [internalMoveLastToFront, internalAt_setInternal_ne _ hps, Option.bind_eq_bind] at h
  obtain ⟨sibling, -, h⟩ := Option.bind_eq_some.mp h
  obtain ⟨page, hp, h⟩ := Option.bind_eq_some.mp h
  obtain ⟨t₁, h₁, h⟩ := Option.bind_eq_some.mp h
  obtain ⟨page₁, -, h⟩ := Option.bind_eq_some.mp h
  cases Option.some.inj h
  refine ((frame_setPage (.inr (.inl rfl)) _).trans ((frame_internalCopyFirstFrom h₁).mono ?_)).trans
    (frame_setPage (.inl rfl) _)
  rintro q (rfl | rfl)
  · exact .inr (.inl rfl)
  · exact .inr (.inr ⟨page, hp, rfl⟩)

/-- `MoveAllTo(sibling, middle_key, bpm)` of an internal page changes the page, the sibling and
the children of the page's first `GetSize()` slots. -/
theorem frame_internalMoveAllTo {p s middleKey : Int} {page : InternalPage}
    (hp : t.internalAt p = some page) (h : t.internalMoveAllTo p s middleKey = some t') :
    Frame (fun q => q = p ∨ q = s ∨ ∃ j < page.header.size, q = page.valueAt j) t t' := by
  simp only [internalMoveAllTo, hp, internalAt_setInternal_self, Option.bind_eq_bind,
    Option.some_bind] at h
  obtain ⟨t₁, h₁, h⟩ := Option.bind_eq_some.mp h
  obtain ⟨page₁, -, h⟩ := Option.bind_eq_some.mp h
  cases Option.some.inj h
  refine ((frame_setPage (.inl rfl) _).trans ((frame_internalCopyNFrom h₁).mono ?_)).trans
    (frame_setPage (.inl rfl) _)
  rintro q (rfl | ⟨item, hitem, rfl⟩)
  · exact .inr (.inl rfl)
  · obtain ⟨j, hj, hval⟩ := InternalPage.exists_valueAt_of_mem_valid hitem
    exact .inr (.inr ⟨j, hj, by rw [hval, InternalPage.valueAt_setKeyAt]⟩)

section Leaf

variable [Inhabited V]

/-- `MoveHalfTo(sibling)` of a leaf changes the leaf, which keeps all but its size, and the
sibling, which keeps its id. -/
theorem leafMoveHalfTo_spec {p s : Int} {page sibling : LeafPage V} (hps : p ≠ s)
    (hp : t.leafAt p = some page) (hs : t.leafAt s = some sibling)
    (h : t.leafMoveHalfTo p s = some t') :
    Frame (fun q => q = p ∨ q = s) t t' ∧
      t'.leafAt p = some { page with header := { page.header with
        size := page.header.size - (page.header.maxSize - (TreePage.leaf page).getMinSize) } } ∧
      ∃ sibling', t'.leafAt s = some sibling' ∧ sibling'.header.pageId = sibling.header.pageId := by
  simp only [leafMoveHalfTo, hp, hs, Option.bind_eq_bind, Option.some_bind, setLeaf,
    leafAt_setPage_ne _ hps] at h
  cases Option.some.inj h
  exact ⟨(frame_setPage (.inr rfl) _).trans (frame_setPage (.inl rfl) _),
    leafAt_setLeaf_self _ _, _, (leafAt_setPage_ne _ hps.symm _).trans (leafAt_setLeaf_self _ _),
    rfl⟩

/-- `Split(node)` of a leaf: the new leaf has the id `NewPage` gives, and the changes are those of
`MoveHalfTo` into it. -/
theorem splitLeaf_spec {p s : Int} {page : LeafPage V} (hp : t.leafAt p = some page)
    (hfresh : p ≠ t.store.nextPageId) (h : t.splitLeaf p = some (s, t')) :
    s = t.store.nextPageId ∧ t.store.nextPageId < t'.store.nextPageId ∧
      Frame (fun q => q = p ∨ q = s) t t' ∧
      t'.leafAt p = some { page with header := { page.header with
        size := page.header.size - (page.header.maxSize - (TreePage.leaf page).getMinSize) } } ∧
      ∃ sibling, t'.leafAt s = some sibling ∧ sibling.header.pageId = s := by
  simp only [splitLeaf, leafAt_newPage, hp, Option.bind_eq_bind, Option.some_bind] at h
  obtain ⟨t₁, h₁, h₂⟩ := Option.bind_eq_some.mp h
  simp only [Option.pure_def, Option.some.injEq, Prod.mk.injEq] at h₂
  obtain ⟨rfl, rfl⟩ := h₂
  have hp' : (t.newPage.2.setLeaf t.store.nextPageId (LeafPage.new t.store.nextPageId
      page.header.parentPageId t.newPage.2.leafMaxSize)).leafAt p = some page :=
    (leafAt_setPage_ne _ hfresh _).trans hp
  obtain ⟨hframe, hkeep, sibling, hs, hid⟩ :=
    leafMoveHalfTo_spec hfresh hp' (leafAt_setLeaf_self _ _) h₁
  exact ⟨rfl, Int.lt_of_lt_of_le (Int.lt_succ _) hframe.nextPageId,
    (frame_newPage.trans (frame_setPage (.inr rfl) _)).trans hframe, hkeep, sibling, hs, hid⟩

/-- `MoveFirstToEnd(sibling)` of a leaf changes the leaf and the sibling. -/
theorem frame_leafMoveFirstToEnd {p s : Int} (h : t.leafMoveFirstToEnd p s = some t') :
    Frame (fun q => q = p ∨ q = s) t t' := by
  simp only [leafMoveFirstToEnd, Option.bind_eq_bind] at h
  obtain ⟨page, -, h⟩ := Option.bind_eq_some.mp h
  obtain ⟨page₁, -, h⟩ := Option.bind_eq_some.mp h
  obtain ⟨sibling, -, h⟩ := Option.bind_eq_some.mp h
  cases Option.some.inj h
  exact (frame_setPage (.inl rfl) _).trans (frame_setPage (.inr rfl) _)

/-- `MoveLastToFront(sibling)` of a leaf changes the leaf and the sibling. -/
theorem frame_leafMoveLastToFront {p s : Int} (h : t.leafMoveLastToFront p s = some t') :
    Frame (fun q => q = p ∨ q = s) t t' := by
  simp only [leafMoveLastToFront, Option.bind_eq_bind] at h
  obtain ⟨page, -, h⟩ := Option.bind_eq_some.mp h
  obtain ⟨sibling, -, h⟩ := Option.bind_eq_some.mp h
  obtain ⟨page₁, -, h⟩ := Option.bind_eq_some.mp h
  obtain ⟨sibling₁, -, h⟩ := Option.bind_eq_some.mp h
  cases Option.some.inj h
  exact ((frame_setPage (.inl rfl) _).trans (frame_setPage (.inr rfl) _)).trans
    (frame_setPage (.inr rfl) _)

/-- `MoveAllTo(sibling)` of a leaf changes the leaf and the sibling. -/
theorem frame_leafMoveAllTo {p s : Int} (h : t.leafMoveAllTo p s = some t') :
    Frame (fun q => q = p ∨ q = s) t t' := by
  simp only [leafMoveAllTo, Option.bind_eq_bind] at h
  obtain ⟨page, -, h⟩ := Option.bind_eq_some.mp h
  obtain ⟨sibling, -, h⟩ := Option.bind_eq_some.mp h
  obtain ⟨page₁, -, h⟩ := Option.bind_eq_some.mp h
  cases Option.some.inj h
  exact (frame_setPage (.inr rfl) _).trans (frame_setPage (.inl rfl) _)

end Leaf

end BPlusTree

end Bustub
