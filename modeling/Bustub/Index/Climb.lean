import Bustub.Index.Lookup
import Bustub.Index.SlotCapacity

/-!
# Inserting into the parent, level by level

A leaf that splits hands its parent the new leaf and the key in its slot 0; a parent that then
holds more than `internal_max_size_` children splits in turn and hands its own parent its new
page, up to a root that splits and gets a new root above it (`InsertIntoParent`).

*The climb.*  `Climb` is what holds when `InsertIntoParent(c, k, r)` is called on the store `u`,
for a page `c` placed in the tree `N` that `t` holds: `u` differs from `t` only under `c` and in
new pages, and holds under `c` and the new page `r` two subtrees that together stand where the
subtree `Q` under `c` stood, the left one below `k` and the right one from `k` on, with the pair
`x` put in among `Q`'s pairs (`Inserts`) and their leaves linked in `Q`'s place (`ChainKept`).

*One level.*  The parent `p` of `c` takes the pair after `c` (`Climb.grow`).  Then it fits, and
the store holds `N` with the parent's new subtree in place (`Grown.room`), or it splits, and the
climb goes on from `p` (`Grown.split`).  At the root a new root goes above the two halves
(`Climb.root`).  By induction on the place of `c`, `InsertIntoParent` succeeds and leaves a
well-formed tree whose pairs are those of `N` with `x` put in (`Placed.climb`).
-/

namespace Bustub

namespace InternalPage

/-! ## The parent after `Insert` -/

section Insert

variable {page : InternalPage} {i : Nat} (hlen : page.header.size ≤ page.array.length)
  (hi : i < page.header.size) (hidx : page.valueIndex (page.valueAt i) = i)
include hlen hi hidx

/-- `Insert(ValueAt(i), k, r)` puts the child `r` right after the child in slot `i`. -/
theorem map_snd_valid_insert (k r : Int) :
    (page.insert (page.valueAt i) k r).1.valid.map (·.2) =
      (page.valid.map (·.2)).take i ++ page.valueAt i :: r :: (page.valid.map (·.2)).drop (i + 1) := by
  have hV : i < page.valid.length := by rw [page.length_valid hlen]; exact hi
  rw [(page.insert_valid _ k r hlen (by rw [hidx]; exact hi)).2.2.2, hidx,
    page.valueAt_eq_valid hV]
  simp only [List.map_append, List.map_cons, List.map_take, List.map_drop, List.take_succ,
    List.getElem?_map, List.getElem?_eq_getElem hV, Option.map_some', Option.toList_some,
    List.append_assoc, List.singleton_append]

/-- `Insert(ValueAt(i), k, r)` puts `k` among the lower bounds of the children, as the bound of the
new child after slot `i`. -/
theorem lowerBounds_insert (lo : Option Int) (k r : Int) :
    (page.insert (page.valueAt i) k r).1.lowerBounds lo =
      (page.lowerBounds lo).take (i + 1) ++ some k :: (page.lowerBounds lo).drop (i + 1) := by
  obtain ⟨-, hheader, hlen', hvalid⟩ :=
    page.insert_valid (page.valueAt i) k r hlen (by rw [hidx]; exact hi)
  obtain ⟨a, V, hV⟩ : ∃ a V, page.valid = a :: V := List.exists_cons_of_length_pos
    (by rw [page.length_valid hlen]; omega)
  rw [lowerBounds_eq _ lo (by rw [hheader]; exact hlen') (by rw [hheader]; exact Nat.succ_pos _),
    hvalid, hidx,
    page.lowerBounds_eq lo hlen (by omega), hV]
  simp [List.map_take, List.map_drop]

end Insert

/-! ## The halves of a split -/

/-- A page cut down to its first `m` pairs bounds its children as it bounded its first `m`. -/
theorem lowerBounds_resize (page : InternalPage) (lo : Option Int) {m : Nat}
    (hm : m ≤ page.header.size) :
    ({ page with header := { page.header with size := m } } : InternalPage).lowerBounds lo =
      (page.lowerBounds lo).take m := by
  simp [lowerBounds, lowerBound, keyAt, ← List.map_take, List.take_range, Nat.min_eq_left hm]

/-- From slot `m` on, `m` at least 1, the children are bounded below by the keys of their
slots. -/
theorem lowerBounds_drop (page : InternalPage) (lo : Option Int) {m : Nat} (hm : 1 ≤ m) :
    (page.lowerBounds lo).drop m =
      (List.range (page.header.size - m)).map fun j => some (page.keyAt (m + j)) := by
  apply List.ext_getElem (by simp [lowerBounds])
  intro j h₁ h₂
  simp [lowerBounds, lowerBound, show m + j ≠ 0 by omega]

/-- With the key of its slot 0 as its own lower bound, a page bounds each child by the key of
its slot. -/
theorem lowerBounds_keyAt_zero (page : InternalPage) :
    page.lowerBounds (some (page.keyAt 0)) =
      (List.range page.header.size).map fun j => some (page.keyAt j) := by
  refine List.map_congr_left fun j _ => ?_
  unfold lowerBound
  split <;> simp_all

/-- The keys of a page holding the pairs of `page` from slot `m` on. -/
theorem keyAt_drop (page : InternalPage) (header : PageHeader) {m j : Nat}
    (hj : m + j < page.header.size) :
    (⟨header, page.valid.drop m⟩ : InternalPage).keyAt j = page.keyAt (m + j) := by
  simp [keyAt, Slots.read, valid, List.getElem?_drop, List.getElem?_take, hj]

end InternalPage

namespace Node

variable {V : Type} {lm im : Nat} {pid : Int}

/-- Children bounded by a first lower bound and then the keys `ks`, each holding pairs within its
bounds, make the keys increase. -/
theorem ChildrenBounded.chain_keys {hi : Option Int} :
    ∀ {ks : List Int} {lo : Option Int} {cs : List (Node V)}, cs.length = ks.length + 1 →
      ChildrenBounded lm im pid hi ((lo :: ks.map some).zip cs) →
      (∀ c ∈ cs, ∀ lo' hi', c.pagesOk lm im lo' hi' pid false = true →
        InRange lo' hi' c.entries) → ks.Chain' (· < ·)
  | [], _, _, _, _, _ => List.chain'_nil
  | [_], _, _, _, _, _ => List.chain'_singleton _
  | k :: k' :: ks, lo, c₀ :: c :: cs, hlen, hCB, hchild => by
    simp only [List.map_cons, List.zip_cons_cons, List.length_cons] at hCB hlen
    obtain ⟨c', cs, rfl⟩ := List.exists_cons_of_length_pos (show 0 < cs.length by omega)
    have hCB' := (childrenBounded_cons.mp hCB).2
    obtain ⟨hne, -, hbound⟩ := hchild c (by simp) _ _ (childrenBounded_cons.mp hCB').1
    obtain ⟨e, he⟩ := List.exists_mem_of_ne_nil _ hne
    have hek := hbound e he
    simp only [List.zip_cons_cons, nextBound_cons, inBounds_iff, Option.mem_def,
      Option.some.injEq, forall_eq'] at hek
    refine List.Chain'.cons (Int.lt_of_le_of_lt hek.1 hek.2) ?_
    exact ChildrenBounded.chain_keys
      (show (c :: c' :: cs).length = (k' :: ks).length + 1 by simpa using hlen)
      (by simpa only [List.map_cons, List.zip_cons_cons] using hCB')
      fun X hX => hchild X (List.mem_cons_of_mem _ hX)
  | _ :: _ :: _, _, [], hlen, _, _ | _ :: _ :: _, _, [_], hlen, _, _ => by simp at hlen

end Node

namespace BPlusTree

variable {V : Type} {t : BPlusTree V}

/-! ## What the climb keeps -/

/-- `new` is `old` with the pair `x` put in somewhere. -/
def Inserts (x : Int × V) (old new : List (Int × V)) : Prop :=
  ∃ A B, old = A ++ B ∧ new = A ++ x :: B

theorem Inserts.middle {x : Int × V} {old new : List (Int × V)} (h : Inserts x old new)
    (P S : List (Int × V)) : Inserts x (P ++ old ++ S) (P ++ new ++ S) := by
  obtain ⟨A, B, rfl, rfl⟩ := h
  exact ⟨P ++ A, B ++ S, by simp, by simp⟩

/-- Putting the leaf chain `new` in place of `old` keeps every chain around it linked. -/
def ChainKept (old new : List (Int × Int)) : Prop :=
  ∀ X Y, Node.linked (X ++ old ++ Y) = true → Node.linked (X ++ new ++ Y) = true

theorem ChainKept.middle {old new : List (Int × Int)} (h : ChainKept old new)
    (P S : List (Int × Int)) : ChainKept (P ++ old ++ S) (P ++ new ++ S) := by
  intro X Y hlinked
  have := h (X ++ P) (S ++ Y) (by simpa only [List.append_assoc] using hlinked)
  simpa only [List.append_assoc] using this

/-! ## Children one to one -/

theorem pageId_of_unfold {fuel : Nat} {p : Int} {node : Node V}
    (h : t.unfold fuel p = some node) : node.pageId = p := by
  cases fuel with
  | zero => simp [unfold] at h
  | succ fuel =>
    rcases unfold_succ_cases h with ⟨_, _, rfl⟩ | ⟨_, _, _, rfl, _⟩ <;> rfl

/-- The children under the pairs `vs` unfold one to one to the trees `Xs`. -/
def UnfoldsAll (t : BPlusTree V) (fuel : Nat) (vs : List Int) (Xs : List (Node V)) : Prop :=
  List.Forall₂ (fun v X => t.unfold fuel v = some X) vs Xs

theorem UnfoldsAll.eq_map_pageId {fuel : Nat} {vs : List Int} {Xs : List (Node V)}
    (h : t.UnfoldsAll fuel vs Xs) : vs = Xs.map Node.pageId := by
  induction h with
  | nil => rfl
  | cons hX _ ih => rw [List.map_cons, pageId_of_unfold hX, ih]

/-- Children that unfold in one store unfold, each to its image under `g`, in another. -/
theorem UnfoldsAll.map {u : BPlusTree V} {fuel : Nat} {g : Node V → Node V} {vs : List Int}
    {Xs : List (Node V)} (h : t.UnfoldsAll fuel vs Xs)
    (hX : ∀ v X, t.unfold fuel v = some X → X ∈ Xs → u.unfold fuel v = some (g X)) :
    u.UnfoldsAll fuel vs (Xs.map g) := by
  induction h with
  | nil => exact .nil
  | cons hx _ ih =>
    exact .cons (hX _ _ hx (List.mem_cons_self _ _))
      (ih fun v X hv hmem => hX v X hv (List.mem_cons_of_mem _ hmem))

/-- Children that unfold in one store unfold the same in a store that agrees on their pages. -/
theorem UnfoldsAll.congr {u : BPlusTree V} {fuel : Nat} {vs : List Int} {Xs : List (Node V)}
    (h : t.UnfoldsAll fuel vs Xs) (hsame : ∀ X ∈ Xs, ∀ q ∈ X.pageIds, u.pageAt q = t.pageAt q) :
    u.UnfoldsAll fuel vs Xs := by
  simpa using h.map (g := id) fun _ X hX hmem => unfold_congr hX (hsame X hmem)

/-- An internal page unfolds once the children its pairs name do, one to one. -/
theorem unfold_of_unfoldsAll {fuel : Nat} {p : Int} {page : InternalPage}
    {children : List (Node V)} (hp : t.pageAt p = some (.internal page))
    (hlen : page.header.size ≤ page.array.length)
    (h : t.UnfoldsAll fuel (page.valid.map (·.2)) children) :
    t.unfold (fuel + 1) p = some (.internal p page children) := by
  have hl := h.length_eq
  rw [List.length_map, page.length_valid hlen] at hl
  refine unfold_succ_of_children hp hl.symm fun i hi => ?_
  have hv : i < page.valid.length := by rw [page.length_valid hlen]; omega
  simpa [page.valueAt_eq_valid hv] using h.get (by simpa using hv) hi

theorem unfoldsAll_of_children {fuel : Nat} {page : InternalPage} {children : List (Node V)}
    (hlen : page.header.size ≤ page.array.length) (hcl : children.length = page.header.size)
    (hchild : ∀ i (hi : i < children.length),
      t.unfold fuel (page.valueAt i) = some children[i]) :
    t.UnfoldsAll fuel (page.valid.map (·.2)) children := by
  refine List.forall₂_of_length_eq_of_get (by simp [page.length_valid hlen, hcl]) fun i h₁ h₂ => ?_
  have hv : i < page.valid.length := by simpa using h₁
  simpa [page.valueAt_eq_valid hv] using hchild i h₂

theorem UnfoldsAll.exists_of_mem {fuel : Nat} {vs : List Int} {Xs : List (Node V)}
    (h : t.UnfoldsAll fuel vs Xs) {X : Node V} (hX : X ∈ Xs) : ∃ v, t.unfold fuel v = some X := by
  induction h with
  | nil => simp at hX
  | cons hx _ ih =>
    rcases List.mem_cons.mp hX with rfl | hX
    · exact ⟨_, hx⟩
    · exact ih hX

/-! ## The invariant of the climb -/

/-- What holds when `InsertIntoParent(c, k, r)` is called on the store `u`, for the page `c` at
depth `d` of the tree that `t` holds within `fuel` levels, with the bounds `lo` and `hi` and the
parent `parentId` of its place, over the subtree `Q`: `u` holds under `c` and under the new page
`r` the subtrees `C` and `R`, split at `k`, which stand in for `Q` with the pair `x` put in. -/
structure Climb (t u : BPlusTree V) (fuel d : Nat) (c : Int) (lo hi : Option Int)
    (parentId : Int) (Q : Node V) (x : Int × V) (k r : Int) (C R : Node V) : Prop where
  frame : Frame (fun y => t.Reaches c y ∨ t.store.nextPageId ≤ y) t u
  fresh : t.store.nextPageId ≤ r
  left : u.unfold (fuel - d) c = some C
  right : u.unfold (fuel - d) r = some R
  leftOk : C.pagesOk t.leafMaxSize t.internalMaxSize lo (some k) parentId false = true
  rightOk : R.pagesOk t.leafMaxSize t.internalMaxSize (some k) hi parentId false = true
  nodup : (C.pageIds ++ R.pageIds).Nodup
  ids : ∀ y ∈ C.pageIds ++ R.pageIds, y ≠ invalidPageId ∧ y < u.store.nextPageId ∧
    (t.Reaches c y ∨ t.store.nextPageId ≤ y)
  entries : Inserts x Q.entries (C.entries ++ R.entries)
  chain : ChainKept Q.chain (C.chain ++ R.chain)

/-- What holds once the parent `p`, at depth `d` of the tree with the bounds `lo` and `hi`, the
parent `parentId` and the subtree `Qp`, has taken the pair of a child that split: `u` holds at
`p` the page `page` over the children `cs`, which stand in for those of `Qp` with the pair `x`
put in, and `page` holds at most one pair more than `internal_max_size_`. -/
structure Grown (t u : BPlusTree V) (fuel d : Nat) (p : Int) (lo hi : Option Int)
    (parentId : Int) (isRoot : Bool) (Qp : Node V) (x : Int × V) (page : InternalPage)
    (cs : List (Node V)) : Prop where
  frame : Frame (fun y => t.Reaches p y ∨ t.store.nextPageId ≤ y) t u
  pageAt : u.pageAt p = some (.internal page)
  header : page.header.pageId = p ∧ page.header.parentPageId = parentId ∧
    page.header.maxSize = t.internalMaxSize
  length : page.header.size ≤ page.array.length
  le : page.header.size ≤ t.internalMaxSize + 1
  minSize : if isRoot then 2 ≤ page.header.size
    else (t.internalMaxSize + 1) / 2 ≤ page.header.size
  depth : d + 1 < fuel
  children : u.UnfoldsAll (fuel - (d + 1)) (page.valid.map (·.2)) cs
  bounded : Node.ChildrenBounded t.leafMaxSize t.internalMaxSize p hi ((page.lowerBounds lo).zip cs)
  nodup : (p :: cs.flatMap Node.pageIds).Nodup
  ids : ∀ y ∈ p :: cs.flatMap Node.pageIds, y ≠ invalidPageId ∧ y < u.store.nextPageId ∧
    (t.Reaches p y ∨ t.store.nextPageId ≤ y)
  entries : Inserts x Qp.entries (cs.flatMap Node.entries)
  chain : ChainKept Qp.chain (cs.flatMap Node.chain)

/-- The store `u` holds, within `fuel + 1` levels, a well-formed tree with the page sizes of `t`,
whose pairs are those of `N` with the pair `x` put in. -/
structure Inserted (t : BPlusTree V) (fuel : Nat) (N : Node V) (x : Int × V) (u : BPlusTree V) :
    Prop where
  leafMaxSize : u.leafMaxSize = t.leafMaxSize
  internalMaxSize : u.internalMaxSize = t.internalMaxSize
  nextPageId : t.store.nextPageId ≤ u.store.nextPageId
  tree : ∃ N', u.WellFormedAs (fuel + 1) N' ∧ Inserts x N.entries N'.entries

section Climb

variable {fuel : Nat} {N : Node V} {x : Int × V} {u : BPlusTree V} {p : Int} {lo hi : Option Int}
  {parentId : Int} {isRoot : Bool} {d : Nat} {Qp : Node V}

/-- A store that differs from `t` only under a placed page `p` or in new pages, and holds under
`p` a subtree `M` that fits the place and links its leaves in place of those of `Qp`, holds a
well-formed tree whose pairs are those of `N` with `M`'s in place of `Qp`'s. -/
theorem wellFormedAs_of_replace (hw : t.WellFormedAs fuel N)
    (hp : t.Placed p lo hi parentId isRoot d) (hQp : t.unfold (fuel - d) p = some Qp)
    (hframe : Frame (fun y => t.Reaches p y ∨ t.store.nextPageId ≤ y) t u) {M : Node V}
    (hM : u.unfold (fuel - d) p = some M)
    (hMok : M.pagesOk t.leafMaxSize t.internalMaxSize lo hi parentId isRoot = true)
    (hMnodup : M.pageIds.Nodup)
    (hMids : ∀ y ∈ M.pageIds, y ≠ invalidPageId ∧ y < u.store.nextPageId ∧
      (t.Reaches p y ∨ t.store.nextPageId ≤ y))
    (hchain : ChainKept Qp.chain M.chain) :
    ∃ N', u.WellFormedAs fuel N' ∧
      ∃ EA EB, N.entries = EA ++ Qp.entries ++ EB ∧ N'.entries = EA ++ M.entries ++ EB := by
  obtain ⟨N', hN', hN'ok, hN'nodup, hN'ids, hE, LA, LB, hL, hL'⟩ :=
    hp.replace hw.unfold hw.pagesOk hw.nodup hw.ids hQp hframe hM hMok hMnodup fun y hy =>
      ⟨(hMids y hy).1, (hMids y hy).2.2.imp id fun h => ⟨h, (hMids y hy).2.1⟩⟩
  have hlinked := hw.chain
  rw [Node.leafChainOk_eq_linked, hL] at hlinked
  refine ⟨N', ⟨hN', ?_, ?_, hN'nodup, hN'ids⟩, hE⟩
  · rwa [hframe.leafMaxSize, hframe.internalMaxSize]
  · rw [Node.leafChainOk_eq_linked, hL']
    exact hchain LA LB hlinked

/-- A store that holds the tree `N` with a placed subtree `Qp` replaced by `M`, which stands in
for `Qp` with `x` put in, holds what an insert of `x` should leave. -/
theorem inserted_of_replace (hw : t.WellFormedAs fuel N) (hp : t.Placed p lo hi parentId isRoot d)
    (hQp : t.unfold (fuel - d) p = some Qp)
    (hframe : Frame (fun y => t.Reaches p y ∨ t.store.nextPageId ≤ y) t u) {M : Node V}
    (hM : u.unfold (fuel - d) p = some M)
    (hMok : M.pagesOk t.leafMaxSize t.internalMaxSize lo hi parentId isRoot = true)
    (hMnodup : M.pageIds.Nodup)
    (hMids : ∀ y ∈ M.pageIds, y ≠ invalidPageId ∧ y < u.store.nextPageId ∧
      (t.Reaches p y ∨ t.store.nextPageId ≤ y))
    (hentries : Inserts x Qp.entries M.entries) (hchain : ChainKept Qp.chain M.chain) :
    Inserted t fuel N x u := by
  obtain ⟨N', hN', EA, EB, hE, hE'⟩ :=
    wellFormedAs_of_replace hw hp hQp hframe hM hMok hMnodup hMids hchain
  exact ⟨hframe.leafMaxSize, hframe.internalMaxSize, hframe.nextPageId, N', hN'.succ,
    by rw [hE, hE']; exact hentries.middle EA EB⟩

/-- The children of the grown parent hold pairs within their bounds. -/
theorem Grown.inRange (hlm : 2 ≤ t.leafMaxSize) (him : 1 ≤ t.internalMaxSize) {page : InternalPage}
    {cs : List (Node V)} (hg : Grown t u fuel d p lo hi parentId isRoot Qp x page cs) :
    ∀ X ∈ cs, ∀ lo' hi', X.pagesOk t.leafMaxSize t.internalMaxSize lo' hi' p false = true →
      Node.InRange lo' hi' X.entries := by
  intro X hX lo' hi' hXok
  obtain ⟨v, hv⟩ := hg.children.exists_of_mem hX
  rw [← hg.frame.leafMaxSize, ← hg.frame.internalMaxSize] at hXok
  exact unfold_inRange (hg.frame.leafMaxSize ▸ hlm) (hg.frame.internalMaxSize ▸ him) hv hXok

/-- The keys of the grown parent increase, as the children they bound hold pairs. -/
theorem Grown.sorted (hlm : 2 ≤ t.leafMaxSize) (him : 1 ≤ t.internalMaxSize) {page : InternalPage}
    {cs : List (Node V)} (hg : Grown t u fuel d p lo hi parentId isRoot Qp x page cs) :
    ((page.valid.drop 1).map (·.1)).Pairwise (· < ·) := by
  have hcl : cs.length = page.header.size := by
    rw [← hg.children.length_eq, List.length_map, page.length_valid hg.length]
  have hCB := hg.bounded
  rw [page.lowerBounds_eq lo hg.length (by have := hg.minSize; split at this <;> omega)] at hCB
  have hCB' : Node.ChildrenBounded t.leafMaxSize t.internalMaxSize p hi
      ((lo :: ((page.valid.drop 1).map (·.1)).map some).zip cs) := by
    simpa only [List.map_map] using hCB
  refine List.chain'_iff_pairwise.mp (Node.ChildrenBounded.chain_keys ?_ hCB' (hg.inRange hlm him))
  simp only [List.length_map, List.length_drop, page.length_valid hg.length, hcl]
  have := hg.minSize
  split at this <;> omega

/-- A parent that fits after taking the pair leaves the tree `N` with its new subtree in place. -/
theorem Grown.room (hw : t.WellFormedAs fuel N) (hlm : 2 ≤ t.leafMaxSize)
    (him : 1 ≤ t.internalMaxSize) (hp : t.Placed p lo hi parentId isRoot d)
    (hQp : t.unfold (fuel - d) p = some Qp) {page : InternalPage} {cs : List (Node V)}
    (hg : Grown t u fuel d p lo hi parentId isRoot Qp x page cs)
    (hroom : page.header.size ≤ t.internalMaxSize) : Inserted t fuel N x u := by
  have hcl : cs.length = page.header.size := by
    rw [← hg.children.length_eq, List.length_map, page.length_valid hg.length]
  have hsize : 1 ≤ page.header.size := by
    have := hg.minSize
    split at this <;> omega
  have hM : u.unfold (fuel - d) p = some (.internal p page cs) := by
    rw [show fuel - d = fuel - (d + 1) + 1 by have := hg.depth; omega]
    exact unfold_of_unfoldsAll hg.pageAt hg.length hg.children
  have hsorted := hg.sorted hlm him
  refine inserted_of_replace hw hp hQp hg.frame hM ?_ (by rw [Node.pageIds_internal]; exact hg.nodup)
    (by rw [Node.pageIds_internal]; exact hg.ids) (by rw [Node.entries_internal]; exact hg.entries)
    (by rw [Node.chain_internal]; exact hg.chain)
  rw [Node.pagesOk_internal_iff hcl]
  refine ⟨⟨hg.header.1, hg.header.2.1, hg.header.2.2, hg.length, hsorted, hroom, ?_⟩, hg.bounded⟩
  rw [hg.header.2.2]
  exact hg.minSize


theorem ne_invalidPageId {y : Int} (hy : 0 ≤ y) : y ≠ invalidPageId := by
  unfold invalidPageId
  omega

/-- At the root, `InsertIntoParent` puts a new root above the two halves, and the store holds
the tree `N` with `x` put in, one level higher. -/
theorem Climb.root (hw : t.WellFormedAs fuel N) (hnext : 0 ≤ t.store.nextPageId)
    (him : 2 ≤ t.internalMaxSize) {k r : Int} {C R : Node V}
    (hc : Climb t u fuel 0 t.rootPageId none none invalidPageId N x k r C R) (f : Nat) :
    ∃ u', u.insertIntoParent (f + 1) t.rootPageId k r = some u' ∧ Inserted t fuel N x u' := by
  have hC := hc.left
  have hR := hc.right
  rw [Nat.sub_zero] at hC hR
  obtain ⟨left, hleft, hlid, hlparent⟩ := header_of_unfold hC hc.leftOk
  obtain ⟨right, hright, hrid, -⟩ := header_of_unfold hR hc.rightOk
  have hmem : ∀ y, t.Reaches t.rootPageId y → y < t.store.nextPageId := fun y hy =>
    (hw.ids y ((reaches_iff_mem_pageIds hw.unfold y).mp hy)).2
  have hroot := hmem _ (.refl _)
  have hnext_le := hc.frame.nextPageId
  -- every page of the two halves is below the next new page
  have hlt : ∀ y ∈ C.pageIds ++ R.pageIds, y < u.store.nextPageId := fun y hy => (hc.ids y hy).2.1
  have hrR : r ∈ R.pageIds := pageId_of_unfold hR ▸ Node.pageId_mem_pageIds R
  have hcC : t.rootPageId ∈ C.pageIds := pageId_of_unfold hC ▸ Node.pageId_mem_pageIds C
  have hr := hlt r (List.mem_append_right _ hrR)
  have hfresh := hc.fresh
  obtain ⟨u', heq, hroot', hnext', hlm', him', hpages⟩ :=
    @insertIntoParent_root_pageAt V u f t.rootPageId k r left right hleft hright
      (by simp [TreePage.isRootPage, hlparent]) hlid hrid (by omega) (by omega) (by omega)
  refine ⟨u', heq, hlm'.trans hc.frame.leafMaxSize, him'.trans hc.frame.internalMaxSize,
    by omega, ?_⟩
  have hdisj := List.disjoint_of_nodup_append hc.nodup
  have hsame : ∀ y ∈ C.pageIds ++ R.pageIds, y ≠ r → y ≠ t.rootPageId →
      u'.pageAt y = u.pageAt y := fun y hy hyr hyc => by
    rw [hpages, if_neg hyr, if_neg hyc, if_neg (Int.ne_of_lt (hlt y hy))]
  have hchildren : u'.UnfoldsAll fuel [t.rootPageId, r]
      [C.withParent u.store.nextPageId, R.withParent u.store.nextPageId] := by
    refine .cons (unfold_withParent hC (List.nodup_append.mp hc.nodup).1 ?_ fun y hy hyc =>
      hsame y (List.mem_append_left _ hy) (fun h => hdisj hy (h ▸ hrR)) hyc) (.cons
      (unfold_withParent hR (List.nodup_append.mp hc.nodup).2.1 ?_ fun y hy hyr =>
        hsame y (List.mem_append_right _ hy) hyr fun h => hdisj (h ▸ hcC) hy) .nil)
    · rw [hpages, if_neg (by omega), if_pos rfl, hleft]
      rfl
    · rw [hpages, if_pos rfl, hright]
      rfl
  obtain ⟨hvalid, harray⟩ := InternalPage.populateNewRoot_valid u.store.nextPageId invalidPageId
    u.internalMaxSize t.rootPageId k r
  set rootPage := (InternalPage.new u.store.nextPageId invalidPageId
    u.internalMaxSize).populateNewRoot t.rootPageId k r
  have hN' : u'.unfold (fuel + 1) u'.rootPageId = some (.internal u.store.nextPageId rootPage
      [C.withParent u.store.nextPageId, R.withParent u.store.nextPageId]) := by
    rw [hroot']
    refine unfold_of_unfoldsAll ?_ (by rw [harray]; rfl) (by rwa [hvalid])
    rw [hpages, if_neg (by omega), if_neg (by omega), if_pos rfl]
  have hlower : rootPage.lowerBounds none = [none, some k] := by
    simp [rootPage, InternalPage.lowerBounds, InternalPage.lowerBound, InternalPage.new,
      InternalPage.populateNewRoot, InternalPage.keyAt, List.range_succ, Slots.read_write]
  refine ⟨_, ⟨hN', ?_, ?_, ?_, fun y hy => ?_⟩, ?_⟩
  · rw [hlm', him', hc.frame.leafMaxSize, hc.frame.internalMaxSize,
      Node.pagesOk_internal_iff (by rfl), hlower]
    refine ⟨⟨rfl, rfl, hc.frame.internalMaxSize, by rw [harray]; rfl, by simp [hvalid],
      by simpa [rootPage, InternalPage.populateNewRoot, InternalPage.new] using him,
      by simp [rootPage, InternalPage.populateNewRoot, InternalPage.new]⟩,
      Node.pagesOk_withParent hc.leftOk, Node.pagesOk_withParent hc.rightOk⟩
  · rw [Node.leafChainOk_eq_linked]
    have := hc.chain [] [] (by simpa [Node.leafChainOk_eq_linked] using hw.chain)
    simpa using this
  · simpa using ⟨⟨fun h => Int.lt_irrefl _ (hlt _ (List.mem_append_left _ h)),
      fun h => Int.lt_irrefl _ (hlt _ (List.mem_append_right _ h))⟩, hc.nodup⟩
  · rw [hnext']
    simp only [Node.pageIds_internal, List.flatMap_cons, Node.pageIds_withParent,
      List.flatMap_nil, List.append_nil, List.mem_cons] at hy
    rcases hy with rfl | hy
    · exact ⟨ne_invalidPageId (by omega), by omega⟩
    · exact ⟨(hc.ids y hy).1, by have := hlt y hy; omega⟩
  · simpa using hc.entries


/-- Subtrees with no page in common have distinct top pages. -/
theorem nodup_map_pageId {cs : List (Node V)} (h : (cs.flatMap Node.pageIds).Nodup) :
    (cs.map Node.pageId).Nodup := by
  rw [List.nodup_flatMap] at h
  rw [List.Nodup, List.pairwise_map]
  exact h.2.imp fun {a b} hdisj (heq : a.pageId = b.pageId) =>
    hdisj (Node.pageId_mem_pageIds a) (heq ▸ Node.pageId_mem_pageIds b)

/-- The parent `p` of a page `c` that split takes the pair after `c`: the store holds at `p` the
page `Insert` leaves, over its old children with the two halves in place of `c`'s subtree. -/
theorem Climb.grow (hw : t.WellFormedAs fuel N) (hp : t.Placed p lo hi parentId isRoot d)
    {page : InternalPage} (hpage : t.internalAt p = some page) {i : Nat}
    (hidx : i < page.header.size) (hQp : t.unfold (fuel - d) p = some Qp) {Q : Node V}
    (hQ : t.unfold (fuel - (d + 1)) (page.valueAt i) = some Q) {k r : Int} {C R : Node V}
    (hc : Climb t u fuel (d + 1) (page.valueAt i) (page.lowerBound lo i) (page.upperBound hi i) p
      Q x k r C R) :
    u.internalAt p = some page ∧ p ≠ invalidPageId ∧ ∃ cs, Grown t
      (u.setInternal p (page.insert (page.valueAt i) k r).1) fuel d p lo hi parentId isRoot Qp x
      (page.insert (page.valueAt i) k r).1 cs := by
  obtain ⟨hd, Qp', hQp', hQpok, hsub⟩ := hp.unfold hw.unfold hw.pagesOk
  cases Option.some.inj (hQp'.symm.trans hQp)
  have hd1 := ((hp.child hpage hidx).unfold hw.unfold hw.pagesOk).1
  have hQp1 := hQp
  rw [show fuel - d = fuel - (d + 1) + 1 by omega] at hQp1
  obtain ⟨cs, rfl, hcl, hchild⟩ := unfold_succ_internal hQp1 hpage
  obtain ⟨⟨hpid, hpparent, hpmax, hlen, -, hle, hmin⟩, hCB⟩ := (Node.pagesOk_internal_iff hcl).mp hQpok
  have hics : i < cs.length := hcl ▸ hidx
  cases Option.some.inj (hQ.symm.trans (hchild i hics))
  have hcs := unfoldsAll_of_children hlen hcl hchild
  -- the pages of the old subtree under `p`
  have hQpnodup := hsub.nodup hw.nodup
  have hold : (p :: (cs.take i).flatMap Node.pageIds ++ cs[i].pageIds ++
      (cs.drop (i + 1)).flatMap Node.pageIds).Nodup := by
    simpa [Node.flatMap_getElem Node.pageIds hics] using hQpnodup
  have hpids : ∀ y ∈ (Node.internal p page cs).pageIds, y ≠ invalidPageId ∧
      y < t.store.nextPageId := fun y hy => hw.ids y (hsub.subset hy)
  have hreach : ∀ y, t.Reaches (page.valueAt i) y ↔ y ∈ cs[i].pageIds :=
    reaches_iff_mem_pageIds (hchild i hics)
  have hreachp : ∀ y, t.Reaches p y ↔ y ∈ (Node.internal p page cs).pageIds :=
    reaches_iff_mem_pageIds hQp
  have hpc : t.Reaches p (page.valueAt i) := Reaches.of_slot hpage hidx
  have hold_mem : ∀ y, y ∈ p :: (cs.take i).flatMap Node.pageIds ∨
      y ∈ (cs.drop (i + 1)).flatMap Node.pageIds → y ∈ (Node.internal p page cs).pageIds := by
    rw [Node.pageIds_internal, Node.flatMap_getElem _ hics]
    simp only [List.mem_cons, List.mem_append]
    rintro y ((h | h) | h)
    exacts [.inl h, .inr (.inl (.inl h)), .inr (.inr h)]
  -- the pages outside the child `i` are neither under it nor new
  have hout : ∀ y, y ∈ p :: (cs.take i).flatMap Node.pageIds ∨
      y ∈ (cs.drop (i + 1)).flatMap Node.pageIds →
      ¬ (t.Reaches (page.valueAt i) y ∨ t.store.nextPageId ≤ y) := by
    rintro y hy (hr | hfresh)
    · rw [List.nodup_append, List.nodup_append] at hold
      rcases hy with hy | hy
      · exact hold.1.2.2 hy ((hreach y).mp hr)
      · exact hold.2.2 (List.mem_append_right _ ((hreach y).mp hr)) hy
    · have := (hpids y (hold_mem y hy)).2
      omega
  have hup : u.pageAt p = t.pageAt p := hc.frame.pageAt p (hout p (.inl (List.mem_cons_self _ _)))
  refine ⟨by rw [internalAt, hup]; exact hpage, (hpids p (List.mem_cons_self _ _)).1, ?_⟩
  -- the page `Insert` leaves at `p`
  have hpnot : p ∉ cs.flatMap Node.pageIds := (List.nodup_cons.mp (by simpa using hQpnodup)).1
  have hvals := hcs.eq_map_pageId
  have hvi : page.valueIndex (page.valueAt i) = i := page.valueIndex_valueAt hlen
    (by rw [hvals]; exact nodup_map_pageId (List.nodup_cons.mp (by simpa using hQpnodup)).2) hidx
  obtain ⟨-, hheader', hlen', -⟩ :=
    page.insert_valid (page.valueAt i) k r hlen (by rw [hvi]; exact hidx)
  -- the pages of the two halves are under `c` or new, so not `p`
  have hnew : ∀ y ∈ C.pageIds ++ R.pageIds, y ∈ cs[i].pageIds ∨ t.store.nextPageId ≤ y :=
    fun y hy => (hc.ids y hy).2.2.imp (hreach y).mp id
  have hnew_ne : ∀ y ∈ C.pageIds ++ R.pageIds, y ≠ p := fun y hy hyp =>
    hout p (.inl (List.mem_cons_self _ _)) (hyp ▸ (hc.ids y hy).2.2)
  have hu₁ : ∀ y, y ≠ p → (u.setInternal p (page.insert (page.valueAt i) k r).1).pageAt y =
      u.pageAt y := fun y hy => by simp [setInternal, hy]
  have hkeep : ∀ y, y ∈ (cs.take i).flatMap Node.pageIds ∨
      y ∈ (cs.drop (i + 1)).flatMap Node.pageIds →
      (u.setInternal p (page.insert (page.valueAt i) k r).1).pageAt y = t.pageAt y := by
    intro y hy
    have hyp : y ≠ p := by
      rintro rfl
      refine hpnot ?_
      rcases hy with hy | hy <;> obtain ⟨X, hX, hyX⟩ := List.mem_flatMap.mp hy
      exacts [List.mem_flatMap.mpr ⟨X, List.mem_of_mem_take hX, hyX⟩,
        List.mem_flatMap.mpr ⟨X, List.mem_of_mem_drop hX, hyX⟩]
    rw [hu₁ y hyp]
    exact hc.frame.pageAt y (hout y (hy.imp (List.mem_cons_of_mem _) id))
  have hchildren : (u.setInternal p (page.insert (page.valueAt i) k r).1).UnfoldsAll
      (fuel - (d + 1)) ((page.insert (page.valueAt i) k r).1.valid.map (·.2))
      (cs.take i ++ C :: R :: cs.drop (i + 1)) := by
    rw [page.map_snd_valid_insert hlen hidx hvi k r]
    refine List.rel_append (UnfoldsAll.congr (List.forall₂_take i hcs) fun X hX y hy =>
      hkeep y (.inl (List.mem_flatMap.mpr ⟨X, hX, hy⟩))) (.cons ?_ (.cons ?_
      (UnfoldsAll.congr (List.forall₂_drop (i + 1) hcs) fun X hX y hy =>
        hkeep y (.inr (List.mem_flatMap.mpr ⟨X, hX, hy⟩)))))
    · exact unfold_congr hc.left fun y hy => hu₁ y (hnew_ne y (List.mem_append_left _ hy))
    · exact unfold_congr hc.right fun y hy => hu₁ y (hnew_ne y (List.mem_append_right _ hy))
  -- the bounds: `k` goes in between the bounds of the two halves
  have hsplit : (cs.take i).length + 1 + (cs.drop (i + 1)).length = page.header.size := by
    simp; omega
  have htake : (cs.take i).length = i := by simp; omega
  have hnb := Node.nextBound_zip_drop page lo hi hsplit
  rw [Node.eq_take_append_getElem_cons_drop hics, Node.childrenBounded_split hsplit, htake] at hCB
  rw [htake] at hnb
  have hbounded : Node.ChildrenBounded t.leafMaxSize t.internalMaxSize p hi
      (((page.insert (page.valueAt i) k r).1.lowerBounds lo).zip
        (cs.take i ++ C :: R :: cs.drop (i + 1))) := by
    have hil : i < (page.lowerBounds lo).length := by simp; omega
    have hlbi : (page.lowerBounds lo)[i] = page.lowerBound lo i := by
      simp [InternalPage.lowerBounds]
    rw [page.lowerBounds_insert hlen hidx hvi lo k r, ← List.take_concat_get _ _ (by simp; omega),
      List.concat_eq_append, List.append_assoc, List.singleton_append,
      List.zip_append (by simp; omega), List.zip_cons_cons, List.zip_cons_cons,
      Node.childrenBounded_append, Node.nextBound_cons, Node.childrenBounded_cons,
      Node.childrenBounded_cons, hnb, hlbi]
    exact ⟨hCB.1, hc.leftOk, hc.rightOk, hCB.2.2⟩
  -- the pages, the pairs and the leaf chain: the two halves in place of the child `i`
  have hflat : ∀ {α : Type} (f : Node V → List α),
      (cs.take i ++ C :: R :: cs.drop (i + 1)).flatMap f =
        (cs.take i).flatMap f ++ (f C ++ f R) ++ (cs.drop (i + 1)).flatMap f := by
    intro α f
    simp [List.flatMap_append, List.flatMap_cons, List.append_assoc]
  have hnodup' : (p :: (cs.take i ++ C :: R :: cs.drop (i + 1)).flatMap Node.pageIds).Nodup := by
    rw [hflat, ← List.cons_append, ← List.cons_append]
    exact nodup_replace_middle hold hc.nodup fun y hy => (hnew y hy).imp id fun hfresh =>
      ⟨fun hX => hout y (.inl hX) (.inr hfresh), fun hY => hout y (.inr hY) (.inr hfresh)⟩
  have hids' : ∀ y ∈ p :: (cs.take i ++ C :: R :: cs.drop (i + 1)).flatMap Node.pageIds,
      y ≠ invalidPageId ∧ y < u.store.nextPageId ∧ (t.Reaches p y ∨ t.store.nextPageId ≤ y) := by
    have hold' : ∀ y ∈ (Node.internal p page cs).pageIds, y ≠ invalidPageId ∧
        y < u.store.nextPageId ∧ (t.Reaches p y ∨ t.store.nextPageId ≤ y) := fun y hy =>
      ⟨(hpids y hy).1, Int.lt_of_lt_of_le (hpids y hy).2 hc.frame.nextPageId,
        .inl ((hreachp y).mpr hy)⟩
    intro y hy
    rw [hflat, ← List.cons_append, ← List.cons_append, List.mem_append, List.mem_append] at hy
    rcases hy with (hX | hy) | hY
    · exact hold' y (hold_mem y (.inl hX))
    · exact ⟨(hc.ids y hy).1, (hc.ids y hy).2.1, (hc.ids y hy).2.2.imp_left hpc.trans⟩
    · exact hold' y (hold_mem y (.inr hY))
  refine ⟨_, (hc.frame.mono fun y hy => hy.imp_left hpc.trans).trans
    (frame_setPage (.inl (.refl _)) _), by simp [setInternal], ?_, ?_, ?_, ?_, hd1, hchildren,
    hbounded, hnodup', hids', ?_, ?_⟩
  · rw [hheader']
    exact ⟨hpid, hpparent, hpmax⟩
  · rw [hheader']
    exact hlen'
  · rw [hheader']
    simp only
    omega
  · rw [hheader', ← hpmax]
    cases isRoot <;> simp only [if_true, Bool.false_eq_true, if_false] at hmin ⊢ <;> omega
  · rw [Node.entries_internal, Node.flatMap_getElem _ hics, hflat]
    exact hc.entries.middle _ _
  · rw [Node.chain_internal, Node.flatMap_getElem _ hics, hflat]
    exact hc.chain.middle _ _


/-- In subtrees with no page in common, a page lies under one subtree only. -/
theorem eq_of_mem_pageIds : ∀ {L : List (Node V)}, (L.flatMap Node.pageIds).Nodup →
    ∀ {X Z : Node V}, X ∈ L → Z ∈ L → ∀ {y : Int}, y ∈ X.pageIds → y ∈ Z.pageIds → X = Z
  | [], _, _, _, hX, _, _, _, _ => absurd hX (List.not_mem_nil _)
  | W :: L, h, X, Z, hX, hZ, y, hyX, hyZ => by
    rw [List.flatMap_cons, List.nodup_append] at h
    rcases List.mem_cons.mp hX with rfl | hX' <;> rcases List.mem_cons.mp hZ with rfl | hZ'
    · rfl
    · exact absurd (List.mem_flatMap.mpr ⟨Z, hZ', hyZ⟩) (h.2.2 hyX)
    · exact absurd (List.mem_flatMap.mpr ⟨X, hX', hyX⟩) (h.2.2 hyZ)
    · exact eq_of_mem_pageIds h.2.1 hX' hZ' hyX hyZ

/-- A parent that holds one pair too many splits: it keeps its first `GetMinSize()` children and
a new page, under the same parent, takes the others, and the climb goes on from the parent with
the key of the new page's slot 0. -/
theorem Grown.split (hlm : 2 ≤ t.leafMaxSize) (him : 2 ≤ t.internalMaxSize)
    (hnext : 0 ≤ t.store.nextPageId) {page : InternalPage} {cs : List (Node V)}
    (hg : Grown t u fuel d p lo hi parentId isRoot Qp x page cs)
    (hfull : t.internalMaxSize < page.header.size) :
    ∃ s u' sibling C R, u.splitInternal p = some (s, u') ∧ u'.internalAt s = some sibling ∧
      Climb t u' fuel d p lo hi parentId Qp x (sibling.keyAt 0) s C R := by
  obtain ⟨hpid, hpparent, hpmax⟩ := hg.header
  have hsize : page.header.size = t.internalMaxSize + 1 := by have := hg.le; omega
  have hcl : cs.length = page.header.size := by
    rw [← hg.children.length_eq, List.length_map, page.length_valid hg.length]
  have hvals := hg.children.eq_map_pageId
  have hlt : ∀ y ∈ p :: cs.flatMap Node.pageIds, y < u.store.nextPageId :=
    fun y hy => (hg.ids y hy).2.1
  obtain ⟨hpnot, hcsnodup⟩ := List.nodup_cons.mp hg.nodup
  have hmemcs : ∀ X ∈ cs, X.pageId ∈ cs.flatMap Node.pageIds := fun X hX =>
    List.mem_flatMap.mpr ⟨X, hX, Node.pageId_mem_pageIds X⟩
  -- the children named from slot `m` on are the tops of the subtrees `cs.drop m`
  set m := (t.internalMaxSize + 1) / 2 with hm
  have hitems : (page.valid.drop m).map (·.2) = (cs.drop m).map Node.pageId := by
    rw [List.map_drop, hvals, List.map_drop]
  have hitem : ∀ z ∈ page.valid.drop m, ∃ X ∈ cs.drop m, z.2 = X.pageId := fun z hz => by
    have hz2 : z.2 ∈ (page.valid.drop m).map (·.2) := List.mem_map_of_mem _ hz
    rw [hitems] at hz2
    obtain ⟨X, hX, hXz⟩ := List.mem_map.mp hz2
    exact ⟨X, hX, hXz.symm⟩
  obtain ⟨u', hsplit, hpl, hs, hframe, hnext', hset⟩ := splitInternal_eq_some
    (by simp [internalAt, hg.pageAt]) (Int.ne_of_lt (hlt p (List.mem_cons_self _ _)))
    (show Slots.slots page.array ((page.header.maxSize + 1) / 2)
        (page.header.maxSize - (page.header.maxSize + 1) / 2 + 1) = page.valid.drop m by
      rw [hpmax, Slots.slots_eq (by have := hg.length; omega), InternalPage.valid, List.drop_take]
      congr 1
      omega)
    fun z hz => by
      obtain ⟨X, hX, hzX⟩ := hitem z hz
      rw [hzX]
      have hXcs := List.mem_of_mem_drop hX
      obtain ⟨v, hv⟩ := hg.children.exists_of_mem hXcs
      refine ⟨Int.ne_of_lt (hlt _ (List.mem_cons_of_mem _ (hmemcs X hXcs))),
        fun h => hpnot (h ▸ hmemcs X hXcs), ?_⟩
      obtain ⟨_, hpage⟩ := pageAt_of_unfold hv
      rw [pageId_of_unfold hv, hpage]
      rfl
  have hmoved : page.header.size - (page.header.maxSize - (page.header.maxSize + 1) / 2 + 1) = m := by
    rw [hpmax]
    omega
  rw [hmoved] at hpl
  -- the subtrees before slot `m` and from it on share no page
  have hsplitcs := hcsnodup
  rw [← List.take_append_drop m cs, List.flatMap_append, List.nodup_append] at hsplitcs
  obtain ⟨-, hdropnodup, hdisj⟩ := hsplitcs
  have hmemitem : ∀ X ∈ cs.drop m, ∃ z ∈ page.valid.drop m, z.2 = X.pageId := fun X hX => by
    have hX2 : X.pageId ∈ (cs.drop m).map Node.pageId := List.mem_map_of_mem _ hX
    rw [← hitems] at hX2
    exact List.mem_map.mp hX2
  have hnot_item : ∀ y, (∀ X ∈ cs.drop m, y ∈ X.pageIds → y = X.pageId → False) →
      y ∈ cs.flatMap Node.pageIds → u'.pageAt y = u.pageAt y := by
    intro y hy hmem
    refine hframe.pageAt y ?_
    rintro (rfl | rfl | ⟨z, hz, rfl⟩)
    · exact hpnot hmem
    · exact Int.lt_irrefl _ (hlt _ (List.mem_cons_of_mem _ hmem))
    · obtain ⟨X, hX, hzX⟩ := hitem z hz
      exact hy X hX (hzX ▸ Node.pageId_mem_pageIds X) hzX
  have hkeep : ∀ X ∈ cs.take m, ∀ y ∈ X.pageIds, u'.pageAt y = u.pageAt y := fun X hX y hy =>
    hnot_item y (fun X' hX' hy' _ => hdisj (List.mem_flatMap.mpr ⟨X, hX, hy⟩)
      (List.mem_flatMap.mpr ⟨X', hX', hy'⟩)) (List.mem_flatMap.mpr ⟨X, List.mem_of_mem_take hX, hy⟩)
  have hmoved' : ∀ X ∈ cs.drop m, ∀ y ∈ X.pageIds, y ≠ X.pageId → u'.pageAt y = u.pageAt y :=
    fun X hX y hy hne => hnot_item y (fun X' hX' hy' hyX' =>
      hne (eq_of_mem_pageIds hdropnodup hX hX' hy hy' ▸ hyX'))
      (List.mem_flatMap.mpr ⟨X, List.mem_of_mem_drop hX, hy⟩)
  have hm1 : 1 ≤ m := by omega
  have hsize_m : m < page.header.size := by omega
  have hvalid_len := page.length_valid hg.length
  -- the halves
  have hvalidL : ({ page with header := { page.header with size := m } } : InternalPage).valid =
      page.valid.take m := by
    simp [InternalPage.valid, List.take_take, Nat.min_eq_left (Nat.le_of_lt hsize_m)]
  have hkey0 : (⟨⟨(page.valid.drop m).length, u.internalMaxSize, page.header.parentPageId,
      u.store.nextPageId⟩, page.valid.drop m⟩ : InternalPage).keyAt 0 = page.keyAt m :=
    page.keyAt_drop _ hsize_m
  have hCB := hg.bounded
  rw [← List.take_append_drop m (page.lowerBounds lo), ← List.take_append_drop m cs,
    List.zip_append (by simp; omega), Node.childrenBounded_append] at hCB
  have hnb : Node.nextBound hi ((((page.lowerBounds lo).drop m).zip (cs.drop m))) =
      some (page.keyAt m) := by
    rw [List.drop_eq_getElem_cons (show m < (page.lowerBounds lo).length by simp; omega),
      List.drop_eq_getElem_cons (show m < cs.length by omega), List.zip_cons_cons,
      Node.nextBound_cons]
    simp [InternalPage.lowerBounds, InternalPage.lowerBound, show m ≠ 0 by omega]
  have hsorted := hg.sorted hlm (by omega)
  have hhalves : ∀ {α : Type} (f : Node V → List α),
      (∀ X, f (X.withParent u.store.nextPageId) = f X) → (cs.take m).flatMap f ++
        ((cs.drop m).map (Node.withParent u.store.nextPageId)).flatMap f = cs.flatMap f := by
    intro α f hf
    simp only [List.flatMap_map, hf]
    rw [← List.flatMap_append, List.take_append_drop]
  set sib : InternalPage := ⟨⟨(page.valid.drop m).length, u.internalMaxSize,
    page.header.parentPageId, u.store.nextPageId⟩, page.valid.drop m⟩ with hsib
  refine ⟨u.store.nextPageId, u', sib, .internal p { page with header := { page.header with
    size := m } } (cs.take m), .internal u.store.nextPageId sib
    ((cs.drop m).map (Node.withParent u.store.nextPageId)), hsplit, hs, ?frame,
    Int.le_trans hg.frame.nextPageId (Int.le_refl _), ?left, ?right, ?leftOk, ?rightOk, ?nodup,
    ?ids, ?entries, ?chain⟩
  case frame =>
    refine hg.frame.trans (hframe.mono fun q hq => ?_)
    rcases hq with rfl | rfl | ⟨z, hz, rfl⟩
    · exact .inl (.refl _)
    · exact .inr hg.frame.nextPageId
    · obtain ⟨X, hX, hzX⟩ := hitem z hz
      rw [hzX]
      exact (hg.ids _ (List.mem_cons_of_mem _ (hmemcs X (List.mem_of_mem_drop hX)))).2.2
  case left =>
    rw [show fuel - d = fuel - (d + 1) + 1 by have := hg.depth; omega]
    refine unfold_of_unfoldsAll (pageAt_of_internalAt hpl) (by have := hg.length; simp; omega) ?_
    rw [hvalidL, List.map_take]
    exact UnfoldsAll.congr (List.forall₂_take m hg.children) hkeep
  case right =>
    rw [show fuel - d = fuel - (d + 1) + 1 by have := hg.depth; omega]
    refine unfold_of_unfoldsAll (pageAt_of_internalAt hs) (Nat.le_refl _) ?_
    simp only [InternalPage.valid, List.take_length]
    rw [← InternalPage.valid, List.map_drop]
    refine UnfoldsAll.map (List.forall₂_drop m hg.children) fun v X hv hX => ?_
    obtain ⟨z, hz, hzX⟩ := hmemitem X hX
    obtain rfl := pageId_of_unfold hv
    exact unfold_withParent hv ((List.nodup_flatMap.mp hcsnodup).1 X (List.mem_of_mem_drop hX))
      (by rw [← hzX, hset z hz]) (hmoved' X hX)
  case leftOk =>
    rw [Node.pagesOk_internal_iff (by simp; omega),
      InternalPage.lowerBounds_resize page lo (Nat.le_of_lt hsize_m), hkey0, ← hnb]
    refine ⟨⟨hpid, hpparent, hpmax, by have := hg.length; simp; omega, ?_, by simp; omega,
      by simp only [Bool.false_eq_true, if_false, hpmax]; omega⟩, hCB.1⟩
    rw [hvalidL, List.drop_take]
    exact hsorted.sublist ((List.take_sublist _ _).map _)
  case rightOk =>
    have hitems_len : (page.valid.drop m).length = page.header.size - m := by
      simp [hvalid_len]
    rw [Node.pagesOk_internal_iff (by simp [hsib, hitems_len]; omega)]
    have hlb : sib.lowerBounds (some (sib.keyAt 0)) = (page.lowerBounds lo).drop m := by
      rw [InternalPage.lowerBounds_keyAt_zero, InternalPage.lowerBounds_drop page lo hm1]
      simp only [hsib, hitems_len]
      exact List.map_congr_left fun j hj => by
        rw [page.keyAt_drop _ (by simp at hj; omega)]
    rw [hlb, List.zip_map_right]
    refine ⟨⟨rfl, hpparent, hg.frame.internalMaxSize, Nat.le_refl _, ?_,
      by simp [hitems_len]; omega,
      by have := hg.frame.internalMaxSize; simp [hitems_len]; omega⟩,
      Node.childrenBounded_withParent hCB.2⟩
    have hdrop : (page.valid.drop m).drop 1 = (page.valid.drop 1).drop m := by
      rw [List.drop_drop, List.drop_drop, Nat.add_comm]
    simp only [hsib, InternalPage.valid, List.take_length]
    rw [← InternalPage.valid, hdrop]
    exact hsorted.sublist ((List.drop_sublist _ _).map _)
  case nodup =>
    rw [Node.pageIds_internal, Node.pageIds_internal, List.nodup_middle, List.cons_append,
      hhalves _ (Node.pageIds_withParent _)]
    exact List.nodup_cons.mpr ⟨fun h => Int.lt_irrefl _ (hlt _ h), hg.nodup⟩
  case ids =>
    intro y hy
    have hold : ∀ y ∈ p :: cs.flatMap Node.pageIds, y ≠ invalidPageId ∧
        y < u'.store.nextPageId ∧ (t.Reaches p y ∨ t.store.nextPageId ≤ y) := fun y hy =>
      ⟨(hg.ids y hy).1, by have := (hg.ids y hy).2.1; omega, (hg.ids y hy).2.2⟩
    rw [Node.pageIds_internal, Node.pageIds_internal, List.mem_append] at hy
    rcases hy with hy | hy
    · refine hold y ?_
      rw [← hhalves _ (Node.pageIds_withParent _), ← List.cons_append]
      exact List.mem_append_left _ hy
    · rcases List.mem_cons.mp hy with rfl | hy
      · exact ⟨ne_invalidPageId (by have := hg.frame.nextPageId; omega), by omega,
          .inr hg.frame.nextPageId⟩
      · refine hold y ?_
        rw [← hhalves _ (Node.pageIds_withParent _)]
        exact List.mem_cons_of_mem _ (List.mem_append_right _ hy)
  case entries =>
    rw [Node.entries_internal, Node.entries_internal, hhalves _ (Node.entries_withParent _)]
    exact hg.entries
  case chain =>
    rw [Node.chain_internal, Node.chain_internal, hhalves _ (Node.chain_withParent _)]
    exact hg.chain


/-- `InsertIntoParent(c, k, r)`, called with the two halves of the subtree under a placed page
`c` and fuel beyond its depth, succeeds and leaves a well-formed tree whose pairs are those of `N`
with `x` put in. -/
theorem Placed.climb (hw : t.WellFormedAs fuel N) (hlm : 2 ≤ t.leafMaxSize)
    (him : 2 ≤ t.internalMaxSize) (hnext : 0 ≤ t.store.nextPageId) {c : Int}
    (h : t.Placed c lo hi parentId isRoot d) {Q : Node V} (hQ : t.unfold (fuel - d) c = some Q)
    {k r : Int} {C R : Node V} (hc : Climb t u fuel d c lo hi parentId Q x k r C R) {f : Nat}
    (hf : d < f) : ∃ u', u.insertIntoParent f c k r = some u' ∧ Inserted t fuel N x u' := by
  induction h generalizing Q u k r C R f with
  | root =>
    cases Option.some.inj (hQ.symm.trans (by rw [Nat.sub_zero]; exact hw.unfold))
    obtain ⟨f, rfl⟩ : ∃ f', f = f' + 1 := ⟨f - 1, by omega⟩
    exact hc.root hw hnext him f
  | @child p lo hi parentId isRoot d page i hp hpage hidx ih =>
    obtain ⟨-, Qp, hQp, -, -⟩ := hp.unfold hw.unfold hw.pagesOk
    obtain ⟨hup, hpinv, cs, hg⟩ := hc.grow hw hp hpage hidx hQp hQ
    obtain ⟨f, rfl⟩ : ∃ f', f = f' + 1 := ⟨f - 1, by omega⟩
    obtain ⟨left, hleft, hlid, hlparent⟩ := header_of_unfold hc.left hc.leftOk
    obtain ⟨right, hright, hrid, -⟩ := header_of_unfold hc.right hc.rightOk
    rw [insertIntoParent_child hleft hright (by simp [TreePage.isRootPage, hlparent, hpinv])
      hlparent hup hlid hrid]
    split
    · rename_i hroom
      exact ⟨_, rfl, hg.room hw hlm (by omega) hp hQp (by rw [← hc.frame.internalMaxSize]; exact hroom)⟩
    · rename_i hfull
      obtain ⟨s, u', sibling, C', R', hsplit, hsibling, hc'⟩ :=
        hg.split hlm him hnext (by rw [← hc.frame.internalMaxSize]; exact Nat.lt_of_not_le hfull)
      rw [hsplit]
      simp only [Option.some_bind, hsibling]
      exact ih hQp hc' (by omega)

end Climb

end BPlusTree

end Bustub
