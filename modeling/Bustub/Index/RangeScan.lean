import Bustub.Index.Iteration
import Bustub.Index.Insert

/-!
# Range scans from `Begin(key)`

`Begin(key)` stands at the slot `KeyIndex(key)` of the leaf `GetLeafPage(key)` reaches: the first
slot whose key is not below `key`, or `GetSize()` when there is none.  `operator++` moves to the
next leaf only from slot `GetSize() - 1`, and `IsEnd()` is true only at slot `GetSize()` of a leaf
with no next leaf.  So the walk from `Begin(key)` reads the pairs of the map from `key` on, in key
order, when that leaf holds a key at or above `key` or is the last leaf.  When every key of that
leaf lies below `key` and a next leaf follows, as for a key between a leaf's last key and the
separator after it, the walk stays in the leaf past its pairs and `IsEnd()` stays false, though
pairs from `key` on remain (`beginAt_iterates`).

*Where the leaf is.*  The leaves before a placed subtree hold pairs below its lower bound, and
those after it pairs at or above its upper bound (`Placed.leavesContext`), as `Placed.context`
says of the pairs.

*The pairs from `key` on.*  They are the leaf's pairs from slot `KeyIndex(key)` on and the pairs of
the leaves after it (`filter_le_eq`), and from a slot inside the leaf the walk reads them
(`walk_from`).
-/

namespace Bustub

namespace Node

/-- A chain linked throughout is linked from any of its leaves on. -/
theorem linked_of_append : ∀ (X Y : List (Int × Int)), linked (X ++ Y) = true → linked Y = true
  | [], _, h => h
  | x :: X, Y, h => by
    rw [List.cons_append, linked_cons] at h
    rcases hXY : X ++ Y with _ | ⟨y, rest⟩
    · rw [(List.append_eq_nil.mp hXY).2]
      rfl
    · rw [hXY] at h
      simp only [List.head?_cons, Bool.and_eq_true] at h
      exact linked_of_append X Y (hXY ▸ h.2)

end Node

namespace LeafPage

variable {V : Type} [Inhabited V] (page : LeafPage V) (key : Int)

omit [Inhabited V] in
/-- The pairs of a sorted leaf from `key` on are those from slot `KeyIndex(key)` on. -/
theorem filter_le_valid (hsort : (page.valid.map (·.1)).Pairwise (· < ·)) :
    page.valid.filter (key ≤ ·.1) = page.valid.drop (page.keyIndex key) := by
  obtain ⟨htake, hdrop⟩ := page.keyIndex_split key hsort
  conv_lhs => rw [← List.take_append_drop (page.keyIndex key) page.valid]
  rw [List.filter_append, List.filter_eq_nil_iff.mpr fun x hx => by simpa using htake x hx,
    List.filter_eq_self.mpr fun x hx => by simpa using hdrop x hx, List.nil_append]

omit [Inhabited V] in
/-- `KeyIndex(key)` is a slot of the leaf exactly when the leaf holds a key at or above `key`. -/
theorem keyIndex_lt_iff (hlen : page.header.size ≤ page.array.length)
    (hsort : (page.valid.map (·.1)).Pairwise (· < ·)) :
    page.keyIndex key < page.header.size ↔ ∃ x ∈ page.valid, key ≤ x.1 := by
  have hmem : ∀ x, x ∈ page.valid.drop (page.keyIndex key) ↔ x ∈ page.valid ∧ key ≤ x.1 :=
    fun x => by rw [← filter_le_valid page key hsort, List.mem_filter, decide_eq_true_iff]
  rw [← page.length_valid hlen]
  constructor
  · intro hk
    obtain ⟨x, hx⟩ := List.exists_mem_of_length_pos
      (show 0 < (page.valid.drop (page.keyIndex key)).length by rw [List.length_drop]; omega)
    exact ⟨x, ((hmem x).mp hx).1, ((hmem x).mp hx).2⟩
  · rintro ⟨x, hx, hxkey⟩
    have := List.length_pos_of_mem ((hmem x).mpr ⟨hx, hxkey⟩)
    rw [List.length_drop] at this
    omega

end LeafPage

namespace BPlusTree

variable {V : Type} [Inhabited V] {t : BPlusTree V}

section WellFormed

variable {fuel : Nat} {N : Node V} (hN : t.unfold fuel t.rootPageId = some N)
  (hok : N.pagesOk t.leafMaxSize t.internalMaxSize none none invalidPageId true = true)
include hN hok

omit [Inhabited V] in
/-- The leaves around a placed subtree: those before it hold pairs below its lower bound, those
after it pairs at or above its upper bound. -/
theorem Placed.leavesContext (hlm : 2 ≤ t.leafMaxSize) (him : 1 ≤ t.internalMaxSize) {q : Int}
    {lo hi : Option Int} {parentId : Int} {isRoot : Bool} {d : Nat}
    (h : t.Placed q lo hi parentId isRoot d) {Q : Node V} (hQ : t.unfold (fuel - d) q = some Q) :
    ∃ LA LB, N.leaves = LA ++ Q.leaves ++ LB ∧ (∀ x ∈ LA.flatMap (·.2.valid), ∃ l ∈ lo, x.1 < l) ∧
      ∀ x ∈ LB.flatMap (·.2.valid), ∃ u ∈ hi, u ≤ x.1 := by
  induction h generalizing Q with
  | root =>
    cases Option.some.inj (hQ.symm.trans hN)
    exact ⟨[], [], by simp, by simp, by simp⟩
  | @child p lo hi parentId isRoot d page i hp hpage hidx ih =>
    obtain ⟨hd, Qp, hQp, hQpok, -⟩ := hp.unfold hN hok
    obtain ⟨LA, LB, hL, hLA, hLB⟩ := ih hQp
    obtain ⟨k, hk⟩ : ∃ k, fuel - d = k + 1 := ⟨fuel - d - 1, by omega⟩
    rw [hk] at hQp
    obtain ⟨cs, rfl, hlen, hcs⟩ := unfold_succ_internal hQp hpage
    rw [show fuel - (d + 1) = k by omega] at hQ
    cases Option.some.inj (hQ.symm.trans (hcs i (by omega)))
    have hchild : ∀ c ∈ cs, ∀ lo' hi', c.pagesOk t.leafMaxSize t.internalMaxSize lo' hi' p false =
        true → Node.InRange lo' hi' c.entries := by
      intro c hc lo' hi' hcok
      obtain ⟨j, hj, rfl⟩ := List.mem_iff_getElem.mp hc
      exact unfold_inRange hlm him (hcs j hj) hcok
    -- the pairs of the leaves of some children are the pairs of those children
    have hvalid : ∀ cs' : List (Node V),
        (cs'.flatMap Node.leaves).flatMap (·.2.valid) = cs'.flatMap Node.entries := fun cs' => by
      rw [List.flatMap_assoc]
      exact congrArg cs'.flatMap (funext fun c => (Node.entries_eq_flatMap c).symm)
    refine ⟨LA ++ (cs.take i).flatMap Node.leaves, (cs.drop (i + 1)).flatMap Node.leaves ++ LB,
      ?_, fun x hx => ?_, fun x hx => ?_⟩
    · rw [hL, Node.leaves, Node.leavesList_eq_flatMap,
        Node.flatMap_getElem _ (show i < cs.length by omega)]
      simp
    · rw [List.flatMap_append, hvalid] at hx
      rcases List.mem_append.mp hx with hx | hx
      · exact Node.lt_lowerBound hlen hQpok hchild (by omega) (.inl (hLA x hx))
      · exact Node.lt_lowerBound hlen hQpok hchild (by omega) (.inr ⟨x, hx, rfl⟩)
    · rw [List.flatMap_append, hvalid] at hx
      rcases List.mem_append.mp hx with hx | hx
      · exact Node.upperBound_le hlen hQpok hchild (by omega) (.inr ⟨x, hx, rfl⟩)
      · exact Node.upperBound_le hlen hQpok hchild (by omega) (.inl (hLB x hx))

end WellFormed

omit [Inhabited V] in
/-- The pairs of a tree from `key` on, around the leaf `page` whose bounds hold `key`: the leaf's
pairs from slot `KeyIndex(key)` on and the pairs of the leaves after it. -/
theorem filter_le_eq {LA LB : List (Int × LeafPage V)} {lo hi : Option Int} {page : LeafPage V}
    {key : Int} (hkey : Node.inBounds lo hi key = true)
    (hsort : (page.valid.map (·.1)).Pairwise (· < ·))
    (hLA : ∀ x ∈ LA.flatMap (·.2.valid), ∃ l ∈ lo, x.1 < l)
    (hLB : ∀ x ∈ LB.flatMap (·.2.valid), ∃ u ∈ hi, u ≤ x.1) :
    (LA.flatMap (·.2.valid) ++ page.valid ++ LB.flatMap (·.2.valid)).filter (key ≤ ·.1) =
      page.valid.drop (page.keyIndex key) ++ LB.flatMap (·.2.valid) := by
  obtain ⟨hlo, hhi⟩ := Node.inBounds_iff.mp hkey
  rw [List.filter_append, List.filter_append, page.filter_le_valid key hsort,
    List.filter_eq_nil_iff.mpr fun x hx => ?_, List.filter_eq_self.mpr fun x hx => ?_,
    List.nil_append]
  · obtain ⟨u, hu, hux⟩ := hLB x hx
    simpa using (lt_of_lt_of_le (hhi u hu) hux).le
  · obtain ⟨l, hl, hxl⟩ := hLA x hx
    simpa using lt_of_lt_of_le hxl (hlo l hl)

/-! ## The walk -/

/-- From a slot inside the first of some linked leaves, each ready, `operator++` reads the leaf's
pairs from that slot on and the pairs of the leaves after it, with `IsEnd()` false at each, and
stops where `IsEnd()` is true after the last. -/
theorem walk_from (pid : Int) (l : Int × LeafPage V) (rest : List (Int × LeafPage V))
    (hready : ∀ x ∈ l :: rest, t.Ready x ∧ x.1 ≠ invalidPageId)
    (hlinked : Node.linked ((l :: rest).map fun x => (x.1, x.2.nextPageId)) = true)
    {k : Nat} (hk : k < l.2.header.size) :
    (∀ i (hi : i < (l.2.valid.drop k ++ rest.flatMap (·.2.valid)).length), ∃ it,
      t.nextN i ⟨pid, l.1, k⟩ = some it ∧
        t.deref it = some (l.2.valid.drop k ++ rest.flatMap (·.2.valid))[i] ∧
        t.isEnd it = some false) ∧
    ∃ it, t.nextN (l.2.valid.drop k ++ rest.flatMap (·.2.valid)).length ⟨pid, l.1, k⟩ = some it ∧
      t.isEnd it = some true := by
  obtain ⟨hwalk, it, hend, hisEnd⟩ := walk_leaves pid l rest hready hlinked
  obtain ⟨⟨hleaf, -, hlen⟩, -⟩ := hready l (List.mem_cons_self _ _)
  have hkv : k ≤ l.2.valid.length := by rw [l.2.length_valid hlen]; omega
  have hdrop : l.2.valid.drop k ++ rest.flatMap (·.2.valid) =
      ((l :: rest).flatMap (·.2.valid)).drop k := by
    rw [List.flatMap_cons, List.drop_append_of_le_length hkv]
  -- `k` applications of `operator++` from slot 0 reach slot `k`
  have hshift : ∀ i, t.nextN i ⟨pid, l.1, k⟩ = t.nextN (k + i) ⟨pid, l.1, 0⟩ := fun i => by
    rw [nextN_add, nextN_inside hleaf k hk]
    rfl
  rw [hdrop]
  refine ⟨fun i hi => ?_, it, ?_, hisEnd⟩
  · rw [List.length_drop] at hi
    obtain ⟨it, hnext, hread, hfalse⟩ := hwalk (k + i) (by omega)
    exact ⟨it, by rw [hshift]; exact hnext, by rw [← List.getElem_drop']; exact hread, hfalse⟩
  · have hW : k ≤ ((l :: rest).flatMap (·.2.valid)).length :=
      hkv.trans (by rw [List.flatMap_cons, List.length_append]; omega)
    rw [hshift, List.length_drop, Nat.add_sub_cancel' hW]
    exact hend

omit [Inhabited V] in
/-- Past the last slot of a leaf with a next leaf, `operator++` only moves on within the leaf. -/
theorem nextN_past {pid id : Int} {leaf : LeafPage V} (hleaf : t.leafAt id = some leaf) :
    ∀ i j, t.nextN i ⟨pid, id, leaf.header.size + j⟩ = some ⟨pid, id, leaf.header.size + j + i⟩
  | 0, _ => rfl
  | i + 1, j => by
    have hstep : t.next ⟨pid, id, leaf.header.size + j⟩ =
        some ⟨pid, id, leaf.header.size + (j + 1)⟩ := by
      simp [next, hleaf, show leaf.header.size + j + 1 ≠ leaf.header.size by omega]
      rfl
    rw [nextN, hstep]
    refine (nextN_past hleaf i (j + 1)).trans ?_
    simp only [Option.some.injEq, IndexIterator.mk.injEq, true_and]
    omega

section Linked

variable {l : Int × LeafPage V} {rest : List (Int × LeafPage V)}
  (hready : ∀ x ∈ l :: rest, t.Ready x ∧ x.1 ≠ invalidPageId)
  (hlinked : Node.linked ((l :: rest).map fun x => (x.1, x.2.nextPageId)) = true)
include hready hlinked

omit [Inhabited V] in
/-- In linked leaves, a leaf whose next page id is `INVALID_PAGE_ID` is the last. -/
theorem eq_nil_of_last (hlast : l.2.nextPageId = invalidPageId) : rest = [] := by
  rcases rest with _ | ⟨l', rest⟩
  · rfl
  · have hl' := (hready l' (List.mem_cons_of_mem _ (List.mem_cons_self _ _))).2
    simp [Node.linked_cons, hlast] at hlinked
    exact absurd hlinked.1.symm hl'

/-- From slot `KeyIndex(key)` of a leaf that holds a key at or above `key`, or is the last leaf,
the walk reads the leaf's pairs from that slot on and those of the leaves after it, and ends. -/
theorem walk_from_keyIndex (pid key : Int) (hsort : (l.2.valid.map (·.1)).Pairwise (· < ·))
    (hcase : (∃ x ∈ l.2.valid, key ≤ x.1) ∨ l.2.nextPageId = invalidPageId) :
    (∀ i (hi : i < (l.2.valid.drop (l.2.keyIndex key) ++ rest.flatMap (·.2.valid)).length), ∃ it,
      t.nextN i ⟨pid, l.1, l.2.keyIndex key⟩ = some it ∧
        t.deref it = some (l.2.valid.drop (l.2.keyIndex key) ++ rest.flatMap (·.2.valid))[i] ∧
        t.isEnd it = some false) ∧
    ∃ it, t.nextN (l.2.valid.drop (l.2.keyIndex key) ++ rest.flatMap (·.2.valid)).length
      ⟨pid, l.1, l.2.keyIndex key⟩ = some it ∧ t.isEnd it = some true := by
  obtain ⟨⟨hleaf, -, hlen⟩, -⟩ := hready l (List.mem_cons_self _ _)
  by_cases hk : l.2.keyIndex key < l.2.header.size
  · exact walk_from pid l rest hready hlinked hk
  · -- every key of the leaf lies below `key`, so it is the last leaf and `Begin(key)` its end
    have hlast := hcase.resolve_left fun hx => hk ((l.2.keyIndex_lt_iff key hlen hsort).mpr hx)
    obtain rfl := eq_nil_of_last hready hlinked hlast
    have hsize : l.2.keyIndex key = l.2.header.size :=
      le_antisymm (l.2.keyIndex_le key) (Nat.le_of_not_lt hk)
    refine ⟨fun i hi => absurd hi (by simp [hsize, l.2.length_valid hlen]),
      ⟨pid, l.1, l.2.header.size⟩, by simp [hsize, l.2.length_valid hlen, nextN], ?_⟩
    simp [isEnd, hleaf, hsize, hlast]

omit [Inhabited V] in
/-- From slot `GetSize()` of a leaf with a next leaf, pairs are left to read, yet `operator++`
never leaves the leaf and `IsEnd()` stays false. -/
theorem stuck_past_leaf (pid : Int) (hnext : l.2.nextPageId ≠ invalidPageId) :
    l.2.valid.drop l.2.header.size ++ rest.flatMap (·.2.valid) ≠ [] ∧
      ∀ i, ∃ it, t.nextN i ⟨pid, l.1, l.2.header.size⟩ = some it ∧ it.page = l.1 ∧
        t.isEnd it = some false := by
  obtain ⟨⟨hleaf, -, -⟩, -⟩ := hready l (List.mem_cons_self _ _)
  refine ⟨fun hnil => ?_, fun i => ⟨⟨pid, l.1, l.2.header.size + i⟩,
    by simpa using nextN_past hleaf i 0, rfl, by simp [isEnd, hleaf, hnext]⟩⟩
  -- the next leaf holds a pair
  rcases rest with _ | ⟨l', rest⟩
  · exact hnext (by simpa [Node.linked] using hlinked)
  · obtain ⟨⟨-, hpos, hlen'⟩, -⟩ := hready l' (List.mem_cons_of_mem _ (List.mem_cons_self _ _))
    have : l'.2.valid ≠ [] := by
      rw [← List.length_pos, l'.2.length_valid hlen']
      exact hpos
    simp [this] at hnil

end Linked

omit [Inhabited V] in
/-- `Begin(key)` on a well-formed tree stands at slot `KeyIndex(key)` of the leaf
`GetLeafPage(key)` reaches.  That leaf and the leaves after it are ready and linked, and the pairs
from `key` on are the leaf's pairs from that slot on and the pairs of the leaves after it. -/
theorem beginAt_leaf (hlm : 2 ≤ t.leafMaxSize) (him : 1 ≤ t.internalMaxSize) {fuel : Nat}
    {N : Node V} (hw : t.WellFormedAs fuel N) (key : Int) {F : Nat} (hF : fuel ≤ F) :
    ∃ leafId page LB, t.beginAt key F = some ⟨leafId, leafId, page.keyIndex key⟩ ∧
      (∀ x ∈ (leafId, page) :: LB, t.Ready x ∧ x.1 ≠ invalidPageId) ∧
      Node.linked (((leafId, page) :: LB).map fun x => (x.1, x.2.nextPageId)) = true ∧
      (page.valid.map (·.1)).Pairwise (· < ·) ∧
      N.entries.filter (key ≤ ·.1) =
        page.valid.drop (page.keyIndex key) ++ LB.flatMap (·.2.valid) := by
  obtain ⟨leafId, lo, hi, parentId, isRoot, d, page, hleafId, hfor⟩ :=
    getLeafPage_leafFor hw hlm him key hF
  obtain ⟨LA, LB, hleaves, hLA, hLB⟩ :=
    Placed.leavesContext hw.unfold hw.pagesOk hlm him hfor.placed hfor.unfold
  rw [show (Node.leaf leafId page).leaves = [(leafId, page)] from rfl, List.append_assoc,
    List.singleton_append] at hleaves
  obtain ⟨-, -, -, -, hsort, -, -, -⟩ := hfor.fits
  refine ⟨leafId, page, LB, by simp [beginAt, hw.isEmpty_eq_false, hleafId, hfor.leafAt],
    fun x hx => ?_, ?_, hsort, ?_⟩
  · -- the leaves from `page` on are ready
    have hx' : x ∈ N.leaves := by rw [hleaves]; exact List.mem_append_right _ hx
    have := leaves_ready hlm hw.unfold hw.pagesOk x hx'
    exact ⟨this.1, (hw.ids _ this.2).1⟩
  · -- and linked
    have := hw.chain
    rw [Node.leafChainOk_eq_linked, Node.chain, hleaves, List.map_append] at this
    exact Node.linked_of_append _ _ this
  · rw [Node.entries_eq_flatMap, hleaves, List.flatMap_append, List.flatMap_cons,
      ← List.append_assoc]
    exact filter_le_eq hfor.key hsort hLA hLB

/-- From `Begin(key)`, on a tree that holds a map: when the leaf `GetLeafPage(key)` reaches holds
a key at or above `key`, or has no next leaf, `operator++` applied `i` times reaches the slot where
`operator*` reads the `i`-th pair of the map from `key` on, in key order, with `IsEnd()` false,
and after as many applications as there are such pairs `IsEnd()` is true.  When every key of that
leaf lies below `key` and it has a next leaf, pairs from `key` on remain, but `operator++` never
leaves the leaf and `IsEnd()` stays false. -/
theorem beginAt_iterates (hlm : 2 ≤ t.leafMaxSize) (him : 1 ≤ t.internalMaxSize) {fuel : Nat}
    {pairs : List (Int × V)} (h : t.Holds fuel pairs) (key : Int) {F : Nat} (hF : fuel ≤ F) :
    pairs = [] ∧ t.beginAt key F = none ∨
      ∃ it0 leaf, t.beginAt key F = some it0 ∧ t.leafAt it0.page = some leaf ∧
        ((∃ x ∈ leaf.valid, key ≤ x.1) ∨ leaf.nextPageId = invalidPageId →
          (∀ i (hi : i < (pairs.filter (key ≤ ·.1)).length), ∃ it, t.nextN i it0 = some it ∧
            t.deref it = some (pairs.filter (key ≤ ·.1))[i] ∧ t.isEnd it = some false) ∧
          ∃ it, t.nextN (pairs.filter (key ≤ ·.1)).length it0 = some it ∧
            t.isEnd it = some true) ∧
        ((∀ x ∈ leaf.valid, x.1 < key) → leaf.nextPageId ≠ invalidPageId →
          pairs.filter (key ≤ ·.1) ≠ [] ∧
            ∀ i, ∃ it, t.nextN i it0 = some it ∧ it.page = it0.page ∧ t.isEnd it = some false) := by
  rcases h with ⟨hempty, rfl⟩ | ⟨N, hw, rfl⟩
  · exact .inl ⟨rfl, by simp [beginAt, hempty]⟩
  obtain ⟨leafId, page, LB, hbegin, hready, hlinked, hsort, hS⟩ := beginAt_leaf hlm him hw key hF
  obtain ⟨⟨hleaf, -, hlen⟩, -⟩ := hready _ (List.mem_cons_self _ _)
  refine .inr ⟨_, page, hbegin, hleaf, fun hcase => ?_, fun hbelow hnext => ?_⟩
  · rw [hS]
    exact walk_from_keyIndex hready hlinked leafId key hsort hcase
  · -- `Begin(key)` stands at slot `GetSize()`
    have hsize : page.keyIndex key = page.header.size :=
      le_antisymm (page.keyIndex_le key) (Nat.le_of_not_lt fun hk => by
        obtain ⟨x, hx, hxkey⟩ := (page.keyIndex_lt_iff key hlen hsort).mp hk
        exact absurd (hbelow x hx) (not_lt.mpr hxkey))
    rw [hS, hsize]
    exact stuck_past_leaf hready hlinked leafId hnext

/-- On the tree with a root over the leaves `[1, 2]` and `[5, 6]`, separated by the key 5 that
`Insert` copies up when it splits a leaf, `Begin(3)` stands past the last slot of the first leaf,
whose keys all lie below 3 and which has a next leaf. -/
theorem beginAt_iterates_gap :
    ∃ t : BPlusTree Nat, t = ⟨PageStore.ofPages
        [(1, .internal ⟨⟨2, 3, invalidPageId, 1⟩, [(0, 2), (5, 3)]⟩),
          (2, .leaf ⟨⟨2, 4, 1, 2⟩, 3, [(1, 10), (2, 20)]⟩),
          (3, .leaf ⟨⟨2, 4, 1, 3⟩, invalidPageId, [(5, 50), (6, 60)]⟩)] 4, 1, 4, 3, [1]⟩ ∧
      (([(1, 10), (2, 20), (5, 50), (6, 60)] : List (Int × Nat)) = [] ∧ t.beginAt 3 2 = none ∨
        ∃ it0 leaf, t.beginAt 3 2 = some it0 ∧ t.leafAt it0.page = some leaf ∧
          ((∃ x ∈ leaf.valid, 3 ≤ x.1) ∨ leaf.nextPageId = invalidPageId →
            (∀ i (hi : i < (([(1, 10), (2, 20), (5, 50), (6, 60)] : List (Int × Nat)).filter
                (3 ≤ ·.1)).length), ∃ it, t.nextN i it0 = some it ∧
              t.deref it = some (([(1, 10), (2, 20), (5, 50), (6, 60)] : List (Int × Nat)).filter
                (3 ≤ ·.1))[i] ∧ t.isEnd it = some false) ∧
            ∃ it, t.nextN (([(1, 10), (2, 20), (5, 50), (6, 60)] : List (Int × Nat)).filter
              (3 ≤ ·.1)).length it0 = some it ∧ t.isEnd it = some true) ∧
          ((∀ x ∈ leaf.valid, x.1 < 3) → leaf.nextPageId ≠ invalidPageId →
            ([(1, 10), (2, 20), (5, 50), (6, 60)] : List (Int × Nat)).filter (3 ≤ ·.1) ≠ [] ∧
              ∀ i, ∃ it, t.nextN i it0 = some it ∧ it.page = it0.page ∧
                t.isEnd it = some false)) := by
  refine ⟨_, rfl, beginAt_iterates (by decide) (by decide) ?_ 3 (Nat.le_refl 2)⟩
  exact .inr ⟨_, ⟨rfl, by decide, by decide, by decide, by decide⟩, rfl⟩

end BPlusTree

end Bustub
