import Bustub.Index.Split

/-!
# Slots past a page's capacity

A page of the tree holds `array_` in the bytes after its header, so its slot capacity is fixed by
the page size, the header and the size of a pair; `LEAF_PAGE_SIZE` and `INTERNAL_PAGE_SIZE`, the
defaults of the constructor's `leaf_max_size` and `internal_max_size`, are these capacities.  The
model keeps the slots a page's operations have written (`array`), so that an operation that
writes slot `i` leaves at least `i + 1` of them (`Slots.length_write`): a page whose `array` is
longer than its capacity has had a slot past its end written.

A leaf splits once it reaches `leaf_max_size_` pairs, but an internal page only once it holds more
than `internal_max_size_`, so `InternalPage::Insert` is called on a page that already holds
`internal_max_size_` pairs and writes the slot of that index.  With the default
`internal_max_size`, that slot is the one past the page.

The run that gets there is one of ascending keys under `leaf_max_size` 2.  The first two calls
build a root over two one-pair leaves (`insert_second`); from then on every call splits the last
leaf and writes the new leaf into the root's next slot (`OneLevel.insert`), until the root holds
`internal_max_size` children and the next call writes its slot `internal_max_size` before the
root splits (`OneLevel.split_root`).  `insertAll_writes_past_capacity` puts the pieces together
for every capacity and every ascending run one call longer than it.
-/

namespace Bustub

/-! ## The page operations of the run -/

namespace LeafPage

variable {V : Type} [Inhabited V]

/-- `Insert` of a key above every key of the page, whose first `GetSize()` slots are written,
writes slot `GetSize()`. -/
theorem insert_of_lt {page : LeafPage V} (key : Int) (value : V)
    (hlen : page.header.size ≤ page.array.length) (hlt : ∀ x ∈ page.valid, x.1 < key) :
    page.insert key value =
      ({ page with array := Slots.write page.array page.header.size (key, value),
                   header := { page.header with size := page.header.size + 1 } },
        page.header.size + 1) := by
  have hidx : page.keyIndex key = page.header.size := by
    rw [keyIndex, List.findIdx_eq_length_of_false fun x hx => by simpa using hlt x hx, valid,
      List.length_take]
    omega
  simp only [insert, hidx, true_or, if_true, ne_eq, not_true_eq_false, if_false]

end LeafPage

namespace InternalPage

/-- `GetLeafPage` descends to the last child for a key that no key of the page is above. -/
theorem lookupChild_of_le {page : InternalPage} {key : Int}
    (h : ∀ i, 1 ≤ i → i < page.header.size → page.keyAt i ≤ key) :
    page.lookupChild key = page.valueAt (page.header.size - 1) := by
  rw [lookupChild, List.find?_eq_none.mpr fun i hi => ?_]
  have hi := List.mem_range'_1.mp hi
  simpa using h i hi.1 (by omega)

/-- `ValueIndex` of a child finds its slot when no slot before names it. -/
theorem valueIndex_of_first {page : InternalPage} (hlen : page.header.size ≤ page.array.length)
    {i : Nat} (hi : i < page.header.size) (hbefore : ∀ j < i, page.valueAt j ≠ page.valueAt i) :
    page.valueIndex (page.valueAt i) = i := by
  have hvalid : page.valid.length = page.header.size := by
    simp only [valid, List.length_take]
    omega
  rw [valueIndex, List.findIdx_eq (hvalid ▸ hi)]
  refine ⟨by simp [← page.valueAt_eq_valid], fun j hj => ?_⟩
  simpa [← page.valueAt_eq_valid] using hbefore j hj

/-- `Insert(old_value, ...)` right after the last child writes slot `GetSize()`. -/
theorem insert_after_last {page : InternalPage} {oldValue newKey newValue : Int}
    (h : page.valueIndex oldValue + 1 = page.header.size) :
    page.insert oldValue newKey newValue =
      ({ page with array := Slots.write page.array page.header.size (newKey, newValue),
                   header := { page.header with size := page.header.size + 1 } },
        page.header.size + 1) := by
  simp only [insert, h, Nat.sub_self, Slots.moveBackward]

end InternalPage

namespace BPlusTree

variable {V : Type} [Inhabited V] {t : BPlusTree V}

/-! ## The constructor and a run of calls -/

/-- `BPlusTree(name, bpm, comparator, leaf_max_size, internal_max_size)`: no root yet, over the
buffer pool `store`. -/
def new (store : PageStore V) (leafMaxSize internalMaxSize : Nat) : BPlusTree V :=
  ⟨store, invalidPageId, leafMaxSize, internalMaxSize, []⟩

/-- `Insert(key, value)` of each pair in turn; `none` once a call fetches a page the store
lacks. -/
def insertAll (t : BPlusTree V) (fuel : Nat) : List (Int × V) → Option (BPlusTree V)
  | [] => some t
  | (key, value) :: pairs => (t.insert key value fuel).bind fun r => r.2.insertAll fuel pairs

/-! ## A full leaf of two pairs -/

omit [Inhabited V] in
@[simp] theorem pageAt_updateRootPageId (q : Int) : t.updateRootPageId.pageAt q = t.pageAt q := rfl

omit [Inhabited V] in
/-- What `InsertIntoParent` at a root that split leaves, page by page: the new root at the id
`NewPage` gives, over the two halves, which take it as their parent. -/
theorem insertIntoParent_root_pageAt {fuel : Nat} {c key r : Int} {left right : TreePage V}
    (hc : t.pageAt c = some left) (hr : t.pageAt r = some right) (hroot : left.isRootPage = true)
    (hcid : left.header.pageId = c) (hrid : right.header.pageId = r)
    (hcfresh : c ≠ t.store.nextPageId) (hrfresh : r ≠ t.store.nextPageId) (hcr : r ≠ c) :
    ∃ t', t.insertIntoParent (fuel + 1) c key r = some t' ∧
      t'.rootPageId = t.store.nextPageId ∧ t'.store.nextPageId = t.store.nextPageId + 1 ∧
      t'.leafMaxSize = t.leafMaxSize ∧ t'.internalMaxSize = t.internalMaxSize ∧
      ∀ q, t'.pageAt q =
        if q = r then some (right.setParentPageId t.store.nextPageId)
        else if q = c then some (left.setParentPageId t.store.nextPageId)
        else if q = t.store.nextPageId then some (.internal ((InternalPage.new t.store.nextPageId
          invalidPageId t.internalMaxSize).populateNewRoot c key r))
        else t.pageAt q :=
  ⟨_, insertIntoParent_root hc hr hroot hcid hrid hcfresh hrfresh hcr, rfl, rfl, rfl, rfl,
    fun q => by simp only [pageAt_updateRootPageId, setInternal, pageAt_setPage]; rfl⟩

/-- The split branch of `InsertIntoLeaf` on a one-pair leaf under `leaf_max_size` 2, for a key
above the leaf's: the leaf keeps its pair, and the new leaf, under the same parent, takes the new
pair, whose key goes up to the parent. -/
theorem insertIntoLeaf_one {key top : Int} (value : V) {fuel : Nat} {leafId parentId : Int}
    {page : LeafPage V} (hlm : t.leafMaxSize = 2) (hleafId : t.getLeafPage key fuel = some leafId)
    (hleaf : t.leafAt leafId = some page) (hheader : page.header = ⟨1, 2, parentId, leafId⟩)
    (hlen : 1 ≤ page.array.length) (htop : page.keyAt 0 ≤ top) (hkey : top < key)
    (hfresh : leafId ≠ t.store.nextPageId) :
    ∃ u, t.insertIntoLeaf key value fuel =
        ((u.insertIntoParent fuel leafId key t.store.nextPageId).bind fun u' => some (true, u')) ∧
      Frame (fun q => q = leafId ∨ q = t.store.nextPageId) t u ∧
      u.store.nextPageId = t.store.nextPageId + 1 ∧
      (∃ left : LeafPage V, u.pageAt leafId = some (.leaf left) ∧
        left.header = ⟨1, 2, parentId, leafId⟩) ∧
      ∃ right : LeafPage V, u.pageAt t.store.nextPageId = some (.leaf right) ∧
        right.header = ⟨1, 2, parentId, t.store.nextPageId⟩ ∧ right.keyAt 0 = key ∧
        1 ≤ right.array.length := by
  have hvalid : page.valid = [Slots.read page.array 0] := by
    rw [LeafPage.valid, hheader, Slots.take_eq_map_read hlen]
    rfl
  have hins : page.insert key value =
      ({ page with array := Slots.write page.array 1 (key, value),
                   header := ⟨2, 2, parentId, leafId⟩ }, page.header.size + 1) := by
    rw [page.insert_of_lt key value (by rw [hheader]; exact hlen) fun x hx => ?_]
    · simp [hheader]
    · rw [hvalid, List.mem_singleton] at hx
      subst hx
      exact lt_of_le_of_lt htop hkey
  obtain ⟨u, heq, hframe, hnext, hleft, hright⟩ :=
    insertIntoLeaf_split hleafId hleaf hfresh hins (by simp [hheader, hlm])
  have hkey0 : ((LeafPage.new t.store.nextPageId parentId t.leafMaxSize).copyNFrom
      (Slots.slots (Slots.write page.array 1 (key, value)) (2 / 2) (2 - 2 / 2))).keyAt 0 = key := by
    simp [LeafPage.copyNFrom, LeafPage.new, LeafPage.keyAt, Slots.slots, Slots.copyFrom,
      Slots.read_write]
  simp only [hkey0] at heq hright
  refine ⟨u, heq, hframe, hnext, ⟨_, hleft, by simp [hheader]⟩, _, hright, ?_, hkey0, ?_⟩
  · simp [LeafPage.copyNFrom, LeafPage.new, hlm, Slots.slots]
  · simp [LeafPage.copyNFrom, LeafPage.new, Slots.slots, Slots.copyFrom, Slots.length_write]

/-! ## A root over one-pair leaves -/

/-- The tree a run of ascending keys builds under `leaf_max_size` 2 before its root splits: an
internal root with `k` children, the last of them `last`, a leaf of one pair and the newest page;
`top` bounds the keys of the root and of that leaf. -/
structure OneLevel (capacity k : Nat) (top : Int) (t : BPlusTree V) (root : InternalPage)
    (last : Int) : Prop where
  leafMaxSize : t.leafMaxSize = 2
  internalMaxSize : t.internalMaxSize = capacity
  rootAt : t.internalAt t.rootPageId = some root
  rootHeader : root.header = ⟨k, capacity, invalidPageId, t.rootPageId⟩
  written : k ≤ root.array.length
  keys : ∀ i, 1 ≤ i → i < k → root.keyAt i ≤ top
  lastAt : root.valueAt (k - 1) = last
  before : ∀ i < k - 1, root.valueAt i < last
  children : ∀ i < k, root.valueAt i ≠ t.rootPageId ∧ (t.pageAt (root.valueAt i)).isSome
  leaf : ∃ page : LeafPage V, t.leafAt last = some page ∧
    page.header = ⟨1, 2, t.rootPageId, last⟩ ∧ page.keyAt 0 ≤ top ∧ 1 ≤ page.array.length
  rootId : 0 ≤ t.rootPageId ∧ t.rootPageId < t.store.nextPageId
  lastFresh : last < t.store.nextPageId

namespace OneLevel

variable {capacity k : Nat} {top : Int} {root : InternalPage} {last : Int}

/-- `GetLeafPage` of a key above `top` descends to the last leaf. -/
theorem getLeafPage_eq (h : OneLevel capacity k top t root last) {key : Int} (hkey : top < key)
    (fuel : Nat) : t.getLeafPage key (fuel + 2) = some last := by
  obtain ⟨page, hpage, -⟩ := h.leaf
  have hsize : root.header.size = k := by rw [h.rootHeader]
  have hchild : root.lookupChild key = last := by
    rw [InternalPage.lookupChild_of_le fun i h1 h2 => (h.keys i h1 (hsize ▸ h2)).trans hkey.le,
      hsize, h.lastAt]
  simp [getLeafPage, getLeafPageFrom, pageAt_of_internalAt h.rootAt, hchild,
    pageAt_of_leafAt hpage]

/-- The root's children are its last child or older pages. -/
theorem valueAt_le_last (h : OneLevel capacity k top t root last) {i : Nat} (hi : i < k) :
    root.valueAt i ≤ last := by
  rcases Nat.lt_or_ge i (k - 1) with hi' | hi'
  · exact (h.before i hi').le
  · rw [← h.lastAt, show i = k - 1 by omega]

/-- One more ascending key: the last leaf splits and the root takes the new leaf as its child in
slot `k`, splitting in turn if that makes more than `internal_max_size_` children. -/
theorem insert (h : OneLevel capacity k top t root last) (hk : 1 ≤ k) {key : Int}
    (hkey : top < key) (value : V) (fuel : Nat) :
    ∃ t' root', t.insert key value (fuel + 2) =
        (if k + 1 ≤ capacity then some t'
          else (t'.splitInternal t.rootPageId).bind fun x => (x.2.internalAt x.1).bind
            fun sibling => x.2.insertIntoParent (fuel + 1) t.rootPageId (sibling.keyAt 0) x.1).bind
          (fun u => some (true, u)) ∧
      t'.rootPageId = t.rootPageId ∧ OneLevel capacity (k + 1) key t' root' t.store.nextPageId := by
  obtain ⟨page, hpage, hheader, htop, hlen⟩ := h.leaf
  have hsize : root.header.size = k := by rw [h.rootHeader]
  have hr := h.rootId
  have hlast : last ≠ t.rootPageId := h.lastAt ▸ (h.children (k - 1) (by omega)).1
  have hroot_s : t.rootPageId ≠ t.store.nextPageId := Int.ne_of_lt hr.2
  obtain ⟨u, heq, hframe, hnext, ⟨left, hleft, hlefth⟩, right, hright, hrighth, hrightk, hrightl⟩ :=
    insertIntoLeaf_one value h.leafMaxSize (h.getLeafPage_eq hkey fuel) hpage hheader hlen htop hkey
      (Int.ne_of_lt h.lastFresh)
  have hu_root : u.internalAt t.rootPageId = some root :=
    (hframe.internalAt fun hq => hq.elim (fun h => hlast h.symm) hroot_s).trans h.rootAt
  have hindex : root.valueIndex last + 1 = root.header.size := by
    rw [← h.lastAt, InternalPage.valueIndex_of_first (hsize ▸ h.written) (by omega)
      fun j hj => Int.ne_of_lt (h.lastAt ▸ h.before j hj), hsize]
    omega
  have hparent := @insertIntoParent_child V u (fuel + 1) last key _ _ _ _ root hleft hright
    (by simp [TreePage.isRootPage, hlefth, invalidPageId]; omega) (by rw [TreePage.header_leaf, hlefth])
    hu_root (by rw [TreePage.header_leaf, hlefth]) (by rw [TreePage.header_leaf, hrighth])
  rw [InternalPage.insert_after_last hindex, hsize, hframe.internalMaxSize, h.internalMaxSize]
    at hparent
  set root' : InternalPage := { root with
    array := Slots.write root.array k (key, t.store.nextPageId),
    header := { root.header with size := k + 1 } }
  have hval : ∀ j, root'.valueAt j = if j = k then t.store.nextPageId else root.valueAt j := by
    intro j
    simp only [root', InternalPage.valueAt, Slots.read_write]
    split <;> rfl
  have hkeyAt : ∀ j, root'.keyAt j = if j = k then key else root.keyAt j := by
    intro j
    simp only [root', InternalPage.keyAt, Slots.read_write]
    split <;> rfl
  have hrootId : (u.setInternal t.rootPageId root').rootPageId = t.rootPageId := hframe.rootPageId
  refine ⟨u.setInternal t.rootPageId root', root', ?_, hrootId, ?_⟩
  · have hne : (t.rootPageId == invalidPageId) = false :=
      beq_false_of_ne fun h => by rw [invalidPageId] at h; omega
    simp only [BPlusTree.insert, isEmpty, hne, Bool.false_eq_true, if_false, heq, hparent]
  have hpage' : ∀ q, q ≠ t.rootPageId → (u.setInternal t.rootPageId root').pageAt q = u.pageAt q :=
    fun q hq => by simp [setInternal, hq]
  refine ⟨hframe.leafMaxSize.trans h.leafMaxSize, hframe.internalMaxSize.trans h.internalMaxSize,
    by rw [hrootId]; exact internalAt_setInternal_self _ _, by rw [hrootId]; simp [root', h.rootHeader],
    by simp [root', Slots.length_write], fun i h1 h2 => ?_, by rw [hval, if_pos (by omega)],
    fun i hi => ?_, fun i hi => ?_, ⟨right, ?_, by rw [hrootId, hrighth], hrightk.le, hrightl⟩,
    by rw [hrootId, nextPageId_setInternal, hnext]; omega,
    by rw [nextPageId_setInternal, hnext]; omega⟩
  · rw [hkeyAt]
    split
    · exact le_rfl
    · exact (h.keys i h1 (by omega)).trans hkey.le
  · rw [hval, if_neg (by omega)]
    exact lt_of_le_of_lt (h.valueAt_le_last (i := i) (by omega)) h.lastFresh
  · rw [hval, hrootId]
    split
    · exact ⟨hroot_s.symm, by rw [hpage' _ hroot_s.symm, hright]; rfl⟩
    · have hc := h.children i (by omega)
      refine ⟨hc.1, ?_⟩
      rw [hpage' _ hc.1]
      by_cases hcl : root.valueAt i = last
      · rw [hcl, hleft]
        rfl
      · rw [hframe.pageAt _ fun hq => hq.elim hcl fun hq =>
          absurd (lt_of_le_of_lt (h.valueAt_le_last (i := i) (by omega)) h.lastFresh) (by rw [hq]; exact lt_irrefl _)]
        exact hc.2
  · simp [leafAt, hpage' _ hroot_s.symm, hright]

/-- A root holding one child more than `internal_max_size_` splits, and a new root goes above its
two halves; the old root keeps every slot it has written. -/
theorem split_root (h : OneLevel capacity (capacity + 1) top t root last) (fuel : Nat) :
    ∃ t', ((t.splitInternal t.rootPageId).bind fun x => (x.2.internalAt x.1).bind
        fun sibling => x.2.insertIntoParent (fuel + 1) t.rootPageId (sibling.keyAt 0) x.1) =
        some t' ∧
      ∃ page, t'.internalAt t.rootPageId = some page ∧ page.array = root.array := by
  have hr := h.rootId
  have hmax : root.header.maxSize = capacity := by rw [h.rootHeader]
  obtain ⟨t₂, hsplit, hp₂, hs₂, -, hnext₂, -⟩ := splitInternal_eq_some h.rootAt (Int.ne_of_lt hr.2)
    rfl fun x hx => by
      obtain ⟨j, hj, rfl⟩ := List.mem_map.mp hx
      have hj' : (root.header.maxSize + 1) / 2 + j < capacity + 1 := by
        rw [List.mem_range] at hj
        omega
      have hc := h.children _ hj'
      exact ⟨Int.ne_of_lt (lt_of_le_of_lt (h.valueAt_le_last hj') h.lastFresh), hc.1, hc.2⟩
  simp only [hsplit, hs₂, Option.some_bind]
  rw [insertIntoParent_root (pageAt_of_internalAt hp₂) (pageAt_of_internalAt hs₂)
    (by simp [TreePage.isRootPage, h.rootHeader]) (by simp [h.rootHeader]) rfl
    (by rw [hnext₂]; omega) (by rw [hnext₂]; omega) (Int.ne_of_lt hr.2).symm]
  refine ⟨_, rfl, ?_⟩
  rw [show ∀ u : BPlusTree V, u.updateRootPageId.internalAt t.rootPageId =
      u.internalAt t.rootPageId from fun _ => rfl, internalAt_setPage_ne _ (Int.ne_of_lt hr.2)]
  simp [internalAt, TreePage.setParentPageId]

end OneLevel

/-! ## The run -/

/-- The first two calls of an ascending run on a new tree: the root leaf of the first pair splits
at the second, and a new internal root goes above the two leaves. -/
theorem insert_second (store : PageStore V) (capacity : Nat) (hstore : 0 ≤ store.nextPageId)
    {a b : Int} (hab : a < b) (va vb : V) (fuel : Nat) :
    ∃ t root, ((new store 2 capacity).startNewTree a va).insert b vb (fuel + 2) = some (true, t) ∧
      OneLevel capacity 2 b t root (store.nextPageId + 1) := by
  set t₁ := (new store 2 capacity).startNewTree a va with ht₁
  have hins : (LeafPage.new store.nextPageId invalidPageId 2 : LeafPage V).insert a va =
      (⟨⟨1, 2, invalidPageId, store.nextPageId⟩, invalidPageId, Slots.write [] 0 (a, va)⟩, 1) := by
    rw [LeafPage.insert_of_lt a va (by simp [LeafPage.new]) (by simp [LeafPage.valid, LeafPage.new])]
    rfl
  have hleaf₁ : t₁.leafAt t₁.rootPageId = some ⟨⟨1, 2, invalidPageId, t₁.rootPageId⟩,
      invalidPageId, Slots.write [] 0 (a, va)⟩ := by
    simp only [ht₁, startNewTree, new, newPage, hins]
    exact leafAt_setLeaf_self _ _
  have hr : 0 ≤ t₁.rootPageId ∧ t₁.store.nextPageId = t₁.rootPageId + 1 := ⟨hstore, rfl⟩
  have hroot₁ : t₁.rootPageId = store.nextPageId := rfl
  have hgl : t₁.getLeafPage b (fuel + 2) = some t₁.rootPageId := by
    simp [getLeafPage, getLeafPageFrom, pageAt_of_leafAt hleaf₁]
  obtain ⟨u, heq, hframe, hnext, ⟨left, hleft, hlefth⟩, right, hright, hrighth, hrightk, hrightl⟩ :=
    insertIntoLeaf_one vb rfl hgl hleaf₁ rfl (by simp [Slots.length_write])
      (by simp [LeafPage.keyAt, Slots.read_write]) hab (by omega)
  rw [hr.2] at heq hnext hright hrighth
  have hne : (t₁.rootPageId == invalidPageId) = false :=
    beq_false_of_ne fun h => by rw [invalidPageId] at h; omega
  obtain ⟨T, hT, hTroot, hTnext, hTlm, hTim, hTpage⟩ :=
    @insertIntoParent_root_pageAt V u (fuel + 1) _ b _ _ _ hleft hright
      (by simp [TreePage.isRootPage, hlefth]) (by rw [TreePage.header_leaf, hlefth])
      (by rw [TreePage.header_leaf, hrighth]) (by omega) (by omega) (by omega)
  rw [hnext] at hTroot hTnext hTpage
  set root := (InternalPage.new (t₁.rootPageId + 1 + 1) invalidPageId u.internalMaxSize).populateNewRoot
    t₁.rootPageId b (t₁.rootPageId + 1)
  have hv0 : root.valueAt 0 = t₁.rootPageId := by
    simp [root, InternalPage.populateNewRoot, InternalPage.valueAt, Slots.read_write]
  have hv1 : root.valueAt 1 = t₁.rootPageId + 1 := by
    simp [root, InternalPage.populateNewRoot, InternalPage.valueAt, Slots.read_write]
  have hne₁ : t₁.rootPageId ≠ t₁.rootPageId + 1 := by omega
  have hne₂ : t₁.rootPageId + 1 + 1 ≠ t₁.rootPageId + 1 := by omega
  have hne₃ : t₁.rootPageId + 1 + 1 ≠ t₁.rootPageId := by omega
  have hsome : ∀ q, q = t₁.rootPageId ∨ q = t₁.rootPageId + 1 → (T.pageAt q).isSome := by
    rintro q (rfl | rfl) <;> simp [hTpage, hne₁]
  refine ⟨T, root, by simp only [BPlusTree.insert, isEmpty, hne, Bool.false_eq_true, if_false, heq,
    hT, Option.some_bind], hTlm.trans hframe.leafMaxSize, hTim.trans hframe.internalMaxSize,
    by simp [internalAt, hTroot, hTpage, hne₂, hne₃], by simp [root, InternalPage.populateNewRoot,
      InternalPage.new, hTroot, hframe.internalMaxSize, show t₁.internalMaxSize = capacity from rfl],
    by simp [root, InternalPage.populateNewRoot, Slots.length_write], fun i h1 h2 => ?_, hv1,
    fun i hi => ?_, fun i hi => ?_,
    ⟨{ right with header := { right.header with parentPageId := t₁.rootPageId + 1 + 1 } },
      by simp [leafAt, hTpage, hroot₁, TreePage.setParentPageId], ?_, hrightk.le, hrightl⟩,
    by rw [hTroot, hTnext]; omega, by rw [hTnext]; omega⟩
  · simp [show i = 1 by omega, root, InternalPage.populateNewRoot, InternalPage.keyAt,
      Slots.read_write]
  · rw [show i = 0 by omega, hv0]
    exact Int.lt_succ _
  · rcases (show i = 0 ∨ i = 1 by omega) with rfl | rfl
    · exact ⟨by rw [hv0, hTroot]; omega, hsome _ (.inl hv0)⟩
    · exact ⟨by rw [hv1, hTroot]; omega, hsome _ (.inr hv1)⟩
  · simp [TreePage.setParentPageId, hrighth, hTroot, hroot₁]

/-- From a root over one-pair leaves, an ascending run that brings the root to one child more
than `internal_max_size_` leaves a page past its capacity: every call but the last appends a child
(`OneLevel.insert`), and the last splits the root (`OneLevel.split_root`). -/
theorem OneLevel.insertAll_overflow {capacity : Nat} (fuel : Nat) :
    ∀ (pairs : List (Int × V)) {k : Nat} {top : Int} {t : BPlusTree V} {root : InternalPage}
      {last : Int}, OneLevel capacity k top t root last → 1 ≤ k →
      k + pairs.length = capacity + 1 → pairs ≠ [] → (∀ x ∈ pairs, top < x.1) →
      (pairs.map Prod.fst).Pairwise (· < ·) →
      ∃ t', t.insertAll (fuel + 2) pairs = some t' ∧
        ∃ pageId page, t'.internalAt pageId = some page ∧ capacity < page.array.length
  | [], _, _, _, _, _, _, _, _, hne, _, _ => absurd rfl hne
  | (key, value) :: pairs, k, _, t, _, _, h, hk, hlen, _, htop, hsorted => by
    obtain ⟨t', root', heq, hroot, h'⟩ := h.insert hk (htop _ (List.mem_cons_self _ _)) value fuel
    rw [List.map_cons, List.pairwise_cons] at hsorted
    rw [List.length_cons] at hlen
    cases pairs with
    | nil =>
      obtain rfl : k = capacity := by simpa using hlen
      obtain ⟨t'', hsplit, page, hpage, harray⟩ := h'.split_root fuel
      rw [hroot] at hsplit hpage
      refine ⟨t'', by simp [insertAll, heq, hsplit, Nat.not_succ_le_self], t.rootPageId, page, hpage,
        ?_⟩
      have := h'.written
      rw [harray]
      omega
    | cons next pairs =>
      obtain ⟨t'', hrun, hpage⟩ := insertAll_overflow fuel (next :: pairs) h' (by omega) (by omega)
        (List.cons_ne_nil _ _) (fun x hx => hsorted.1 x.1 (List.mem_map_of_mem _ hx)) hsorted.2
      refine ⟨t'', ?_, hpage⟩
      rw [insertAll, heq, if_pos (by simp at hlen; omega)]
      exact hrun

/-- With `internal_max_size` at an internal page's slot capacity, which the default
`INTERNAL_PAGE_SIZE` is, and `leaf_max_size` 2, every ascending run of one more `Insert` calls
than that capacity, on a new tree, writes a slot of an internal page past its capacity. -/
theorem insertAll_writes_past_capacity (store : PageStore V) (capacity : Nat) (hcap : 2 ≤ capacity)
    (hstore : 0 ≤ store.nextPageId) (fuel : Nat) (hfuel : 2 ≤ fuel) (pairs : List (Int × V))
    (hsorted : (pairs.map Prod.fst).Pairwise (· < ·)) (hlen : pairs.length = capacity + 1) :
    ∃ t, (new store 2 capacity).insertAll fuel pairs = some t ∧
      ∃ pageId page, t.internalAt pageId = some page ∧ capacity < page.array.length := by
  obtain ⟨fuel, rfl⟩ : ∃ f, fuel = f + 2 := ⟨fuel - 2, by omega⟩
  rcases pairs with _ | ⟨⟨a, va⟩, _ | ⟨⟨b, vb⟩, pairs⟩⟩
  · simp at hlen
  · simp at hlen
    omega
  simp only [List.map_cons, List.pairwise_cons, List.mem_cons, forall_eq_or_imp] at hsorted
  obtain ⟨t₂, root, h₂, hone⟩ := insert_second store capacity hstore hsorted.1.1 va vb fuel
  obtain ⟨t, hrun, hpage⟩ := hone.insertAll_overflow fuel pairs (by omega)
    (by simp at hlen; omega) (by rintro rfl; simp at hlen; omega)
    (fun x hx => hsorted.2.1 x.1 (List.mem_map_of_mem _ hx)) hsorted.2.2
  have h₁ : (new store 2 capacity).insert a va (fuel + 2) =
      some (true, (new store 2 capacity).startNewTree a va) := rfl
  refine ⟨t, ?_, hpage⟩
  simp only [insertAll, h₁, h₂, Option.some_bind]
  exact hrun

/-- Capacity 2: the third of the keys 1, 2, 3 writes slot 2 of the root. -/
theorem insertAll_writes_past_capacity_three_keys :
    2 ≤ 2 ∧ (0 : Int) ≤ (PageStore.ofPages ([] : List (Int × TreePage Nat)) 0).nextPageId ∧
      2 ≤ 2 ∧ ([(1, 10), (2, 20), (3, 30)].map Prod.fst).Pairwise (· < ·) ∧
      [((1 : Int), (10 : Nat)), (2, 20), (3, 30)].length = 2 + 1 ∧
      ∃ t, (new (PageStore.ofPages [] 0) 2 2).insertAll 2 [(1, 10), (2, 20), (3, 30)] = some t ∧
        ∃ pageId page, t.internalAt pageId = some page ∧ 2 < page.array.length :=
  ⟨le_rfl, le_rfl, le_rfl, by decide, rfl,
    insertAll_writes_past_capacity _ 2 le_rfl le_rfl 2 le_rfl _ (by decide) rfl⟩

end BPlusTree

end Bustub
