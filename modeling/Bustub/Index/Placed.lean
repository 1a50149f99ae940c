import Bustub.Index.Assemble

/-!
# Where a page sits in the tree

`GetLeafPage` and `InsertIntoParent` walk the tree along one path: down from the root by
`Lookup`, and back up by `parent_page_id_`.  `Placed t q lo hi parentId isRoot d` says that the
page `q` sits on such a path at depth `d`: the root, or the child in some slot `i` of a placed
internal page, with the key bounds that page's keys set for that slot (`InternalPage.lowerBound`,
`InternalPage.upperBound`).

*Subtrees.*  On a well-formed tree a placed page unfolds, within the fuel that is left at its
depth, to a subtree that passes `pagesOk` with the bounds and the parent of its place
(`Placed.unfold`).  The pairs of the whole tree are those before the subtree, all below its lower
bound, its own, and those after it, all at or above its upper bound (`Placed.context`).

*Descent.*  `GetLeafPage(key)` from a placed page whose bounds hold `key` reaches a placed leaf
whose bounds hold `key` (`Placed.getLeafPageFrom`).

*Replacement.*  A store that differs from the tree only under a placed page, and holds there a
subtree with the same bounds, parent and fresh or old pages, holds a well-formed tree: the old one
with that subtree in place, its pairs and its leaf chain between the same neighbours
(`Placed.replace`).
-/

namespace Bustub

/-- The upper bound of the child in slot `i` of an internal page whose own upper bound is `hi`:
`KeyAt(i + 1)`, `hi` for the last slot. -/
def InternalPage.upperBound (page : InternalPage) (hi : Option Int) (i : Nat) : Option Int :=
  if i + 1 = page.header.size then hi else some (page.keyAt (i + 1))

namespace Node

variable {V : Type} {lm im : Nat} {pid : Int}

/-! ## Children around one slot -/

@[simp] theorem length_lowerBounds (page : InternalPage) (lo : Option Int) :
    (page.lowerBounds lo).length = page.header.size := by
  simp [InternalPage.lowerBounds]

/-- The children with their lower bounds, around the child `X` in slot `A.length`. -/
theorem zip_lowerBounds_split (page : InternalPage) (lo : Option Int) {A B : List (Node V)}
    {X : Node V} (hlen : A.length + 1 + B.length = page.header.size) :
    (page.lowerBounds lo).zip (A ++ X :: B) =
      ((page.lowerBounds lo).take A.length).zip A ++
        (page.lowerBound lo A.length, X) :: ((page.lowerBounds lo).drop (A.length + 1)).zip B := by
  have hlb : A.length < (page.lowerBounds lo).length := by simp; omega
  conv_lhs =>
    rw [← List.take_append_drop A.length (page.lowerBounds lo), List.drop_eq_getElem_cons hlb]
  rw [List.zip_append (by simp; omega), List.zip_cons_cons]
  simp [InternalPage.lowerBounds]

/-- The bound after the child in slot `A.length` is the slot's upper bound. -/
theorem nextBound_zip_drop (page : InternalPage) (lo hi : Option Int) {A B : List (Node V)}
    (hlen : A.length + 1 + B.length = page.header.size) :
    nextBound hi (((page.lowerBounds lo).drop (A.length + 1)).zip B) =
      page.upperBound hi A.length := by
  unfold InternalPage.upperBound
  cases B with
  | nil => simp [show A.length + 1 = page.header.size by simpa using hlen]
  | cons b B =>
    simp only [List.length_cons] at hlen
    rw [if_neg (by omega), List.drop_eq_getElem_cons (by simp; omega), List.zip_cons_cons,
      nextBound_cons]
    simp [InternalPage.lowerBounds, InternalPage.lowerBound]

/-- The children of a page, around the child `X` in slot `A.length`, are bounded when those
before `X` are bounded up to its lower bound, `X` passes `pagesOk` within the slot's bounds, and
those after it are bounded. -/
theorem childrenBounded_split {lo hi : Option Int} {page : InternalPage} {A B : List (Node V)}
    {X : Node V} (hlen : A.length + 1 + B.length = page.header.size) :
    ChildrenBounded lm im pid hi ((page.lowerBounds lo).zip (A ++ X :: B)) ↔
      ChildrenBounded lm im pid (page.lowerBound lo A.length)
          (((page.lowerBounds lo).take A.length).zip A) ∧
        X.pagesOk lm im (page.lowerBound lo A.length) (page.upperBound hi A.length) pid false =
          true ∧
        ChildrenBounded lm im pid hi (((page.lowerBounds lo).drop (A.length + 1)).zip B) := by
  rw [zip_lowerBounds_split page lo hlen, childrenBounded_append, nextBound_cons,
    childrenBounded_cons, nextBound_zip_drop page lo hi hlen]

theorem eq_take_append_getElem_cons_drop {α : Type} {l : List α} {i : Nat} (hidx : i < l.length) :
    l = l.take i ++ l[i] :: l.drop (i + 1) := by
  rw [← List.drop_eq_getElem_cons hidx, List.take_append_drop]

/-- Each child of an internal node that passes `pagesOk` passes it within its slot's bounds. -/
theorem pagesOk_child {lo hi : Option Int} {parentId p : Int} {isRoot : Bool} {page : InternalPage}
    {cs : List (Node V)} (hlen : cs.length = page.header.size)
    (h : (internal p page cs).pagesOk lm im lo hi parentId isRoot = true) {i : Nat}
    (hidx : i < cs.length) :
    cs[i].pagesOk lm im (page.lowerBound lo i) (page.upperBound hi i) p false = true := by
  have hCB := ((pagesOk_internal_iff hlen).mp h).2
  have hsplit : (cs.take i).length + 1 + (cs.drop (i + 1)).length = page.header.size := by
    simp; omega
  rw [eq_take_append_getElem_cons_drop hidx, childrenBounded_split hsplit] at hCB
  simpa [Nat.min_eq_left (Nat.le_of_lt hidx)] using hCB.2.1

theorem flatMap_set {α : Type} (f : Node V → List α) {cs : List (Node V)} {i : Nat}
    (hidx : i < cs.length) (X : Node V) :
    (cs.set i X).flatMap f = (cs.take i).flatMap f ++ f X ++ (cs.drop (i + 1)).flatMap f := by
  rw [List.set_eq_take_append_cons_drop, if_pos hidx, List.flatMap_append, List.flatMap_cons,
    List.append_assoc]

theorem flatMap_getElem {α : Type} (f : Node V → List α) {cs : List (Node V)} {i : Nat}
    (hidx : i < cs.length) :
    cs.flatMap f = (cs.take i).flatMap f ++ f cs[i] ++ (cs.drop (i + 1)).flatMap f := by
  conv_lhs => rw [eq_take_append_getElem_cons_drop hidx]
  rw [List.flatMap_append, List.flatMap_cons, List.append_assoc]

@[simp] theorem entries_internal (p : Int) (page : InternalPage) (cs : List (Node V)) :
    (internal p page cs).entries = cs.flatMap entries :=
  entriesList_eq_flatMap cs

@[simp] theorem pageIds_internal (p : Int) (page : InternalPage) (cs : List (Node V)) :
    (internal p page cs).pageIds = p :: cs.flatMap pageIds :=
  congrArg (p :: ·) (pageIdsList_eq_flatMap cs)

@[simp] theorem chain_internal (p : Int) (page : InternalPage) (cs : List (Node V)) :
    (internal p page cs).chain = cs.flatMap chain := by
  simp only [chain, leaves, leavesList_eq_flatMap, List.map_flatMap]
  rfl

/-! ## Pairs around one child -/

/-- Bounded children after a first lower bound `lo`, every later one a key, hold pairs within
`lo` and `hi`. -/
theorem inRange_zip {hi lo : Option Int} {bs : List (Option Int)} {c : Node V}
    {cs : List (Node V)} (hCB : ChildrenBounded lm im pid hi ((lo :: bs).zip (c :: cs)))
    (hsome : ∀ b ∈ bs, b.isSome) (hlen : cs.length ≤ bs.length)
    (hchild : ∀ x ∈ c :: cs, ∀ lo' hi', x.pagesOk lm im lo' hi' pid false = true →
      InRange lo' hi' x.entries) :
    InRange lo hi ((c :: cs).flatMap entries) := by
  rw [List.zip_cons_cons] at hCB
  have h := ChildrenBounded.inRange hCB (fun x hx => hsome _ (List.of_mem_zip hx).1) fun x hx =>
    hchild x.2 (by
      rcases List.mem_cons.mp hx with rfl | hx
      · exact List.mem_cons_self _ _
      · exact List.mem_cons_of_mem _ (List.of_mem_zip hx).2)
  rwa [List.map_snd_zip _ _ hlen, ← List.flatMap_cons] at h

section Around

variable {lo hi : Option Int} {parentId p : Int} {isRoot : Bool} {page : InternalPage}
  {cs : List (Node V)}

/-- In an internal node that passes `pagesOk`, with children holding pairs within their bounds,
the pairs of the children before slot `i` lie below the slot's lower bound, and so does anything
below the node's own. -/
theorem lt_lowerBound (hlen : cs.length = page.header.size)
    (h : (internal p page cs).pagesOk lm im lo hi parentId isRoot = true)
    (hchild : ∀ c ∈ cs, ∀ lo' hi', c.pagesOk lm im lo' hi' p false = true →
      InRange lo' hi' c.entries)
    {i : Nat} (hidx : i < cs.length) {y : Int}
    (hy : (∃ l ∈ lo, y < l) ∨ ∃ x ∈ (cs.take i).flatMap entries, y = x.1) :
    ∃ l ∈ page.lowerBound lo i, y < l := by
  obtain ⟨hfits, hCB⟩ := (pagesOk_internal_iff hlen).mp h
  cases i with
  | zero =>
    rcases hy with hy | ⟨x, hx, -⟩
    · exact hy
    · simp at hx
  | succ i =>
    obtain ⟨c₀, cs', rfl⟩ := List.exists_cons_of_length_pos (show 0 < cs.length by omega)
    have hsplit : (List.take (i + 1) (c₀ :: cs')).length + 1 +
        (List.drop (i + 1 + 1) (c₀ :: cs')).length = page.header.size := by
      simp only [List.length_take, List.length_drop, List.length_cons] at hidx hlen ⊢; omega
    rw [eq_take_append_getElem_cons_drop hidx, childrenBounded_split hsplit] at hCB
    have harr : page.header.size ≤ page.array.length := hfits.2.2.2.1
    have htake : (List.take (i + 1) (c₀ :: cs')).length = i + 1 := by simp at hidx ⊢; omega
    rw [htake, page.lowerBounds_eq lo harr (by omega), List.take_succ_cons,
      List.take_succ_cons] at hCB
    have hR := inRange_zip hCB.1
      (fun b hb => by obtain ⟨_, -, rfl⟩ := List.mem_map.mp (List.mem_of_mem_take hb); rfl)
      (by simp [InternalPage.valid] at hlen ⊢; omega)
      (fun c hc => hchild c (List.mem_of_mem_take (by rwa [List.take_succ_cons])))
    rw [← List.take_succ_cons] at hR
    obtain ⟨hne, -, hbound⟩ := hR
    simp only [inBounds_iff, Option.mem_def] at hbound
    simp only [InternalPage.lowerBound, Nat.add_one_ne_zero, if_false, Option.mem_def,
      Option.some.injEq, exists_eq_left']
    rcases hy with ⟨l, hl, hyl⟩ | ⟨x, hx, rfl⟩
    · obtain ⟨e, he⟩ := List.exists_mem_of_ne_nil _ hne
      exact Int.lt_trans (Int.lt_of_lt_of_le hyl ((hbound e he).1 l hl)) ((hbound e he).2 _ rfl)
    · exact (hbound x hx).2 _ rfl

/-- In an internal node that passes `pagesOk`, with children holding pairs within their bounds,
the pairs of the children after slot `i` lie at or above the slot's upper bound, and so does
anything at or above the node's own. -/
theorem upperBound_le (hlen : cs.length = page.header.size)
    (h : (internal p page cs).pagesOk lm im lo hi parentId isRoot = true)
    (hchild : ∀ c ∈ cs, ∀ lo' hi', c.pagesOk lm im lo' hi' p false = true →
      InRange lo' hi' c.entries)
    {i : Nat} (hidx : i < cs.length) {y : Int}
    (hy : (∃ u ∈ hi, u ≤ y) ∨ ∃ x ∈ (cs.drop (i + 1)).flatMap entries, y = x.1) :
    ∃ u ∈ page.upperBound hi i, u ≤ y := by
  obtain ⟨hfits, hCB⟩ := (pagesOk_internal_iff hlen).mp h
  have harr : page.header.size ≤ page.array.length := hfits.2.2.2.1
  unfold InternalPage.upperBound
  split
  · rcases hy with hy | ⟨x, hx, -⟩
    · exact hy
    · rw [List.drop_eq_nil_of_le (by omega)] at hx
      simp at hx
  · have hsplit : (cs.take i).length + 1 + (cs.drop (i + 1)).length = page.header.size := by
      simp; omega
    rw [eq_take_append_getElem_cons_drop hidx, childrenBounded_split hsplit] at hCB
    have htake : (cs.take i).length = i := by simp; omega
    have hnext : i + 1 < cs.length := by omega
    have hB := hCB.2.2
    rw [List.drop_eq_getElem_cons hnext, htake,
      List.drop_eq_getElem_cons (show i + 1 < (page.lowerBounds lo).length by simp; omega)] at hB
    have hR := inRange_zip hB
      (fun b hb => by
        rw [page.lowerBounds_eq lo harr (by omega), List.drop_succ_cons] at hb
        obtain ⟨_, -, rfl⟩ := List.mem_map.mp (List.mem_of_mem_drop hb)
        rfl)
      (by simp; omega)
      (fun c hc => hchild c (List.mem_of_mem_drop (by rwa [List.drop_eq_getElem_cons hnext])))
    rw [← List.drop_eq_getElem_cons hnext] at hR
    obtain ⟨hne, -, hbound⟩ := hR
    simp only [inBounds_iff, Option.mem_def] at hbound
    simp only [InternalPage.lowerBounds, List.getElem_map, List.getElem_range,
      InternalPage.lowerBound, Nat.add_one_ne_zero, if_false, Option.some.injEq,
      exists_eq_left'] at hbound
    simp only [Option.mem_def, Option.some.injEq, exists_eq_left']
    rcases hy with ⟨u, hu, hyu⟩ | ⟨x, hx, rfl⟩
    · obtain ⟨e, he⟩ := List.exists_mem_of_ne_nil _ hne
      exact Int.le_trans (Int.le_of_lt (Int.lt_of_le_of_lt ((hbound e he).1 _ rfl)
        ((hbound e he).2 u hu))) hyu
    · exact (hbound x hx).1 _ rfl

end Around

end Node

namespace BPlusTree

variable {V : Type} {t : BPlusTree V}

/-- A list without repeats keeps none when a middle part is replaced by one without repeats whose
new members are not around it. -/
theorem nodup_replace_middle {α : Type} {X S S' Y : List α} (h : (X ++ S ++ Y).Nodup)
    (hS' : S'.Nodup) (hnew : ∀ x ∈ S', x ∈ S ∨ x ∉ X ∧ x ∉ Y) : (X ++ S' ++ Y).Nodup := by
  rw [List.nodup_append, List.nodup_append] at h ⊢
  obtain ⟨⟨hX, -, hXS⟩, hY, hXSY⟩ := h
  have hout : ∀ x ∈ S', x ∉ X ∧ x ∉ Y := fun x hx => (hnew x hx).elim
    (fun hS => ⟨fun hX => hXS hX hS, fun hY => hXSY (List.mem_append_right _ hS) hY⟩) id
  refine ⟨⟨hX, hS', fun x hx hx' => (hout x hx').1 hx⟩, hY, fun x hx hy => ?_⟩
  rcases List.mem_append.mp hx with hx | hx
  · exact hXSY (List.mem_append_left _ hx) hy
  · exact (hout x hx).2 hy

/-- The page `q` sits at depth `d` of the tree, under `parentId`, with keys bounded by `lo` and
`hi`: the root, or the child in a slot of a placed internal page, within the bounds that page sets
for the slot. -/
inductive Placed (t : BPlusTree V) : Int → Option Int → Option Int → Int → Bool → Nat → Prop
  | root : Placed t t.rootPageId none none invalidPageId true 0
  | child {p : Int} {lo hi : Option Int} {parentId : Int} {isRoot : Bool} {d : Nat}
      {page : InternalPage} {i : Nat} : Placed t p lo hi parentId isRoot d →
      t.internalAt p = some page → i < page.header.size →
      Placed t (page.valueAt i) (page.lowerBound lo i) (page.upperBound hi i) p false (d + 1)

section WellFormed

variable {fuel : Nat} {N : Node V} (hN : t.unfold fuel t.rootPageId = some N)
  (hok : N.pagesOk t.leafMaxSize t.internalMaxSize none none invalidPageId true = true)
include hN hok

/-- A placed page unfolds, within the fuel left at its depth, to a subtree of the tree that
passes `pagesOk` with the bounds and the parent of its place. -/
theorem Placed.unfold {q : Int} {lo hi : Option Int} {parentId : Int} {isRoot : Bool} {d : Nat}
    (h : t.Placed q lo hi parentId isRoot d) :
    d < fuel ∧ ∃ Q, t.unfold (fuel - d) q = some Q ∧
      Q.pagesOk t.leafMaxSize t.internalMaxSize lo hi parentId isRoot = true ∧
      Q.pageIds.Sublist N.pageIds := by
  induction h with
  | root =>
    refine ⟨Nat.pos_of_ne_zero ?_, N, hN, hok, List.Sublist.refl _⟩
    rintro rfl
    simp [BPlusTree.unfold] at hN
  | @child p lo hi parentId isRoot d page i _ hpage hidx ih =>
    obtain ⟨hd, Q, hQ, hQok, hsub⟩ := ih
    obtain ⟨k, hk⟩ : ∃ k, fuel - d = k + 1 := ⟨fuel - d - 1, by omega⟩
    rw [hk] at hQ
    obtain ⟨cs, rfl, hlen, hcs⟩ := unfold_succ_internal hQ hpage
    have hchild := hcs i (by omega)
    have hk0 : k ≠ 0 := by
      rintro rfl
      simp [BPlusTree.unfold] at hchild
    have hsub' : (p :: cs.flatMap Node.pageIds).Sublist N.pageIds := by simpa using hsub
    refine ⟨by omega, cs[i], by rwa [show fuel - (d + 1) = k by omega],
      Node.pagesOk_child hlen hQok _, ?_⟩
    exact ((List.sublist_flatten_of_mem (List.mem_map_of_mem Node.pageIds
      (List.getElem_mem _))).trans (List.sublist_cons_self _ _)).trans hsub'

/-- The pairs of the tree around a placed subtree: those before it lie below its lower bound,
those after it at or above its upper bound. -/
theorem Placed.context (hlm : 2 ≤ t.leafMaxSize) (him : 1 ≤ t.internalMaxSize) {q : Int}
    {lo hi : Option Int} {parentId : Int} {isRoot : Bool} {d : Nat}
    (h : t.Placed q lo hi parentId isRoot d) {Q : Node V} (hQ : t.unfold (fuel - d) q = some Q) :
    ∃ EA EB, N.entries = EA ++ Q.entries ++ EB ∧ (∀ x ∈ EA, ∃ l ∈ lo, x.1 < l) ∧
      ∀ x ∈ EB, ∃ u ∈ hi, u ≤ x.1 := by
  induction h generalizing Q with
  | root =>
    cases Option.some.inj (hQ.symm.trans hN)
    exact ⟨[], [], by simp, by simp, by simp⟩
  | @child p lo hi parentId isRoot d page i hp hpage hidx ih =>
    obtain ⟨hd, Qp, hQp, hQpok, -⟩ := hp.unfold hN hok
    obtain ⟨EA, EB, hE, hEA, hEB⟩ := ih hQp
    obtain ⟨k, hk⟩ : ∃ k, fuel - d = k + 1 := ⟨fuel - d - 1, by omega⟩
    rw [hk] at hQp
    obtain ⟨cs, rfl, hlen, hcs⟩ := unfold_succ_internal hQp hpage
    rw [show fuel - (d + 1) = k by omega] at hQ
    cases Option.some.inj (hQ.symm.trans (hcs i (by omega)))
    have hchild : ∀ c ∈ cs, ∀ lo' hi', c.pagesOk t.leafMaxSize t.internalMaxSize lo' hi' p false =
        true → Node.InRange lo' hi' c.entries := by
      intro c hc lo' hi' hcok
      obtain ⟨j, hj, rfl⟩ := List.mem_iff_getElem.mp hc
      exact unfold_inRange hlm him (hcs j hj) hcok
    refine ⟨EA ++ (cs.take i).flatMap Node.entries, (cs.drop (i + 1)).flatMap Node.entries ++ EB,
      ?_, fun x hx => ?_, fun x hx => ?_⟩
    · rw [hE, Node.entries_internal, Node.flatMap_getElem _ (show i < cs.length by omega)]
      simp
    · rcases List.mem_append.mp hx with hx | hx
      · exact Node.lt_lowerBound hlen hQpok hchild (by omega) (.inl (hEA x hx))
      · exact Node.lt_lowerBound hlen hQpok hchild (by omega) (.inr ⟨x, hx, rfl⟩)
    · rcases List.mem_append.mp hx with hx | hx
      · exact Node.upperBound_le hlen hQpok hchild (by omega) (.inr ⟨x, hx, rfl⟩)
      · exact Node.upperBound_le hlen hQpok hchild (by omega) (.inl (hEB x hx))

/-- `GetLeafPage(key)` from a placed page whose bounds hold `key` reaches, within the fuel left at
the page's depth, a placed leaf whose bounds hold `key`. -/
theorem Placed.descend (him : 1 ≤ t.internalMaxSize) {key : Int} :
    ∀ {n : Nat} {q : Int} {lo hi : Option Int} {parentId : Int} {isRoot : Bool} {d : Nat},
      t.Placed q lo hi parentId isRoot d → fuel - d = n → Node.inBounds lo hi key = true →
      ∃ leafId lo' hi' parentId' isRoot' d' page, t.getLeafPageFrom key n q = some leafId ∧
        t.Placed leafId lo' hi' parentId' isRoot' d' ∧ t.leafAt leafId = some page ∧
        Node.inBounds lo' hi' key = true
  | 0, _, _, _, _, _, _, h, hn, _ => absurd hn (by have := (h.unfold hN hok).1; omega)
  | n + 1, q, lo, hi, parentId, isRoot, d, h, hn, hkey => by
    obtain ⟨-, Q, hQ, hQok, -⟩ := h.unfold hN hok
    rw [hn] at hQ
    rcases unfold_succ_cases hQ with ⟨page, hpage, rfl⟩ | ⟨page, cs, hpage, rfl, hlen, -⟩
    · exact ⟨q, lo, hi, parentId, isRoot, d, page, by simp [BPlusTree.getLeafPageFrom, hpage], h,
        by simp [leafAt, hpage], hkey⟩
    · obtain ⟨-, -, hmax, -, -, -, hmin⟩ := ((Node.pagesOk_internal_iff hlen).mp hQok).1
      have hsize : 1 ≤ page.header.size := by cases isRoot <;> simp at hmin <;> omega
      obtain ⟨i, hi, hchild, hkey'⟩ := page.lookupChild_spec key lo hi hsize hkey
      obtain ⟨leafId, lo', hi', parentId', isRoot', d', leaf, hleafId, hplaced, hleaf, hkey''⟩ :=
        Placed.descend him (h.child (by simp [internalAt, hpage]) hi)
          (show fuel - (d + 1) = n by omega) hkey'
      exact ⟨leafId, lo', hi', parentId', isRoot', d', leaf,
        by simp [BPlusTree.getLeafPageFrom, hpage, hchild, hleafId], hplaced, hleaf, hkey''⟩

/-- A store that differs from the tree only under a placed page `q` or in pages it has newly
given out, and holds under `q` a subtree `M` with the place's bounds and parent, no page twice, and
only pages from under `q` or new ones, holds a well-formed tree: the old one with `M` in place of
the subtree under `q`, its pairs and its leaf chain between the same neighbours. -/
theorem Placed.replace (hnodup : N.pageIds.Nodup)
    (hids : ∀ x ∈ N.pageIds, x ≠ invalidPageId ∧ x < t.store.nextPageId) {u : BPlusTree V}
    {q : Int} {lo hi : Option Int} {parentId : Int} {isRoot : Bool} {d : Nat}
    (h : t.Placed q lo hi parentId isRoot d) {Q M : Node V} (hQ : t.unfold (fuel - d) q = some Q)
    (hframe : Frame (fun x => t.Reaches q x ∨ t.store.nextPageId ≤ x) t u)
    (hM : u.unfold (fuel - d) q = some M)
    (hMok : M.pagesOk t.leafMaxSize t.internalMaxSize lo hi parentId isRoot = true)
    (hMnodup : M.pageIds.Nodup)
    (hMids : ∀ x ∈ M.pageIds, x ≠ invalidPageId ∧
      (t.Reaches q x ∨ t.store.nextPageId ≤ x ∧ x < u.store.nextPageId)) :
    ∃ N', u.unfold fuel u.rootPageId = some N' ∧
      N'.pagesOk t.leafMaxSize t.internalMaxSize none none invalidPageId true = true ∧
      N'.pageIds.Nodup ∧ (∀ x ∈ N'.pageIds, x ≠ invalidPageId ∧ x < u.store.nextPageId) ∧
      (∃ EA EB, N.entries = EA ++ Q.entries ++ EB ∧ N'.entries = EA ++ M.entries ++ EB) ∧
      ∃ LA LB, N.chain = LA ++ Q.chain ++ LB ∧ N'.chain = LA ++ M.chain ++ LB := by
  induction h generalizing Q M with
  | root =>
    cases Option.some.inj (hQ.symm.trans hN)
    refine ⟨M, by rw [hframe.rootPageId]; exact hM, hMok, hMnodup, fun x hx => ⟨(hMids x hx).1, ?_⟩,
      ⟨[], [], by simp, by simp⟩, [], [], by simp, by simp⟩
    rcases (hMids x hx).2 with hr | ⟨-, hlt⟩
    · exact Int.lt_of_lt_of_le (hids x ((reaches_iff_mem_pageIds hN x).mp hr)).2 hframe.nextPageId
    · exact hlt
  | @child p lo hi parentId isRoot d page i hp hpage hidx ih =>
    obtain ⟨hd, Qp, hQp, hQpok, hsub⟩ := hp.unfold hN hok
    obtain ⟨k, hk⟩ : ∃ k, fuel - d = k + 1 := ⟨fuel - d - 1, by omega⟩
    have hQp' := hQp
    rw [hk] at hQp'
    obtain ⟨cs, rfl, hlen, hcs⟩ := unfold_succ_internal hQp' hpage
    have hics : i < cs.length := by omega
    rw [show fuel - (d + 1) = k by omega] at hQ
    cases Option.some.inj (hQ.symm.trans (hcs i hics))
    -- the pages under `p` before the change
    have hold : (p :: (cs.take i).flatMap Node.pageIds ++ cs[i].pageIds ++
        (cs.drop (i + 1)).flatMap Node.pageIds).Nodup := by
      simpa [Node.flatMap_getElem Node.pageIds hics] using hsub.nodup hnodup
    have hpids : ∀ x ∈ p :: cs.flatMap Node.pageIds, x ≠ invalidPageId ∧ x < t.store.nextPageId :=
      fun x hx => hids x (hsub.subset (by simpa using hx))
    have hreach : ∀ x, t.Reaches (page.valueAt i) x ↔ x ∈ cs[i].pageIds :=
      reaches_iff_mem_pageIds (hcs i hics)
    have hreachp : ∀ x, t.Reaches p x ↔ x ∈ p :: cs.flatMap Node.pageIds := by
      simpa using reaches_iff_mem_pageIds hQp
    have hpq : t.Reaches p (page.valueAt i) := Reaches.of_slot hpage hidx
    -- the children other than `i` keep their pages
    have hother : ∀ j (hj : j < cs.length), i ≠ j → ∀ x ∈ cs[j].pageIds,
        u.pageAt x = t.pageAt x := by
      intro j hj hij x hx
      have hdisj := (List.nodup_flatMap.mp (List.nodup_cons.mp (by simpa using hsub.nodup hnodup :
        (p :: cs.flatMap Node.pageIds).Nodup)).2).2
      refine hframe.pageAt x ?_
      rintro (hr | hfresh)
      · rcases Nat.lt_or_gt_of_ne hij with hlt | hlt
        · exact List.pairwise_iff_getElem.mp hdisj i j hics hj hlt ((hreach x).mp hr) hx
        · exact List.pairwise_iff_getElem.mp hdisj j i hj hics hlt hx ((hreach x).mp hr)
      · have := (hpids x (List.mem_cons_of_mem _ (List.mem_flatMap.mpr
          ⟨_, List.getElem_mem hj, hx⟩))).2
        omega
    have hpu : u.pageAt p = t.pageAt p := by
      refine hframe.pageAt p ?_
      rintro (hr | hfresh)
      · rw [List.nodup_append, List.nodup_append] at hold
        exact hold.1.2.2 (List.mem_cons_self _ _) ((hreach p).mp hr)
      · have := (hpids p (List.mem_cons_self _ _)).2
        omega
    -- the new subtree under `p`
    have hnew : p :: (cs.set i M).flatMap Node.pageIds = p :: (cs.take i).flatMap Node.pageIds ++
        M.pageIds ++ (cs.drop (i + 1)).flatMap Node.pageIds := by
      rw [Node.flatMap_set _ hics]
      rfl
    have hMp : u.unfold (fuel - d) p = some (.internal p page (cs.set i M)) := by
      rw [show fuel - (d + 1) = k by omega] at hM
      rw [hk]
      refine unfold_succ_of_children (hpu.trans (pageAt_of_internalAt hpage)) (by simp [hlen])
        fun j hj => ?_
      rw [List.getElem_set]
      split
      · subst_vars
        exact hM
      · exact unfold_congr (hcs j (by simpa using hj)) (hother j _ ‹_›)
    have hMpok : (Node.internal p page (cs.set i M)).pagesOk t.leafMaxSize t.internalMaxSize lo hi
        parentId isRoot = true := by
      have hfits := (Node.pagesOk_internal_iff hlen).mp hQpok
      have hsplit : (cs.take i).length + 1 + (cs.drop (i + 1)).length = page.header.size := by
        simp; omega
      have htake : (cs.take i).length = i := by simp; omega
      have hCB := hfits.2
      rw [Node.eq_take_append_getElem_cons_drop hics, Node.childrenBounded_split hsplit, htake]
        at hCB
      rw [Node.pagesOk_internal_iff (by simp [hlen]), List.set_eq_take_append_cons_drop, if_pos hics,
        Node.childrenBounded_split hsplit, htake]
      exact ⟨hfits.1, hCB.1, hMok, hCB.2.2⟩
    -- the pages under `p` outside the child `i` are pages of the old subtree
    have hold_mem : ∀ x, x ∈ p :: (cs.take i).flatMap Node.pageIds ∨
        x ∈ (cs.drop (i + 1)).flatMap Node.pageIds → x ∈ p :: cs.flatMap Node.pageIds := by
      rw [Node.flatMap_getElem _ hics]
      simp only [List.mem_cons, List.mem_append]
      rintro x ((h | h) | h)
      exacts [.inl h, .inr (.inl (.inl h)), .inr (.inr h)]
    have hMpnodup : (Node.internal p page (cs.set i M)).pageIds.Nodup := by
      rw [Node.pageIds_internal, hnew]
      refine nodup_replace_middle hold hMnodup fun x hx => ?_
      rcases (hMids x hx).2 with hr | ⟨hfresh, -⟩
      · exact .inl ((hreach x).mp hr)
      · exact .inr ⟨fun hX => by have := (hpids x (hold_mem x (.inl hX))).2; omega,
          fun hY => by have := (hpids x (hold_mem x (.inr hY))).2; omega⟩
    have hMpids : ∀ x ∈ (Node.internal p page (cs.set i M)).pageIds, x ≠ invalidPageId ∧
        (t.Reaches p x ∨ t.store.nextPageId ≤ x ∧ x < u.store.nextPageId) := by
      rw [Node.pageIds_internal, hnew]
      intro x hx
      rcases List.mem_append.mp hx with hx | hY
      · rcases List.mem_append.mp hx with hX | hx
        · have hmem := hold_mem x (.inl hX)
          exact ⟨(hpids x hmem).1, .inl ((hreachp x).mpr hmem)⟩
        · exact ⟨(hMids x hx).1, (hMids x hx).2.imp_left hpq.trans⟩
      · have hmem := hold_mem x (.inr hY)
        exact ⟨(hpids x hmem).1, .inl ((hreachp x).mpr hmem)⟩
    obtain ⟨N', hN', hN'ok, hN'nodup, hN'ids, ⟨EA, EB, hE, hE'⟩, LA, LB, hL, hL'⟩ :=
      ih hQp (hframe.mono fun x hx => hx.imp_left hpq.trans) hMp hMpok hMpnodup hMpids
    refine ⟨N', hN', hN'ok, hN'nodup, hN'ids,
      ⟨EA ++ (cs.take i).flatMap Node.entries, (cs.drop (i + 1)).flatMap Node.entries ++ EB, ?_, ?_⟩,
      LA ++ (cs.take i).flatMap Node.chain, (cs.drop (i + 1)).flatMap Node.chain ++ LB, ?_, ?_⟩
    · rw [hE, Node.entries_internal, Node.flatMap_getElem _ hics]
      simp
    · rw [hE', Node.entries_internal, Node.flatMap_set _ hics]
      simp
    · rw [hL, Node.chain_internal, Node.flatMap_getElem _ hics]
      simp
    · rw [hL', Node.chain_internal, Node.flatMap_set _ hics]
      simp

end WellFormed

end BPlusTree

end Bustub
