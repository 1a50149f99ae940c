import Bustub.Index.Climb

/-!
# `Insert` refines a sorted map

The tree stands for the map its leaves hold, left to right (`Holds`).  This module shows that
`Insert(key, value)` acts on that map as a map insert that leaves a key already there alone
(`mapInsert`): on the empty tree it starts a one-leaf tree, on a tree that holds the key it
returns false and changes nothing, and otherwise it returns true and leaves a well-formed tree
whose pairs are the old ones with the new pair in its place (`insert_refines`).

*The leaf.*  The new pair goes into the leaf `GetLeafPage` reaches; if the leaf stays below
`leaf_max_size_` the tree is the old one with that leaf in place (`inserted_of_replace`), and
otherwise the leaf splits into two halves linked in its place, where the climb of
`InsertIntoParent` starts (`Placed.climb`).

*Runs.*  Each call raises the height of the tree by at most one, so a run of `n` calls from the
constructor, with fuel at least `n`, succeeds at every call and leaves a tree on which `GetValue`
answers as the map built by the same inserts (`insertAll_getValue`).
-/

namespace Bustub

/-! ## Sorted pairs -/

section Sorted

variable {V : Type}

/-- The pairs of a sorted map with `(key, value)` put in before the first larger key, and whether
it did not hold `key`; a map that holds `key` stays as it is. -/
def mapInsert (key : Int) (value : V) (pairs : List (Int × V)) : Bool × List (Int × V) :=
  if key ∈ pairs.map (·.1) then (false, pairs)
  else (true, pairs.takeWhile (·.1 < key) ++ (key, value) :: pairs.dropWhile (·.1 < key))

/-- The map after inserting the pairs `ops` in turn. -/
def mapInsertAll (pairs : List (Int × V)) : List (Int × V) → List (Int × V)
  | [] => pairs
  | (key, value) :: ops => mapInsertAll (mapInsert key value pairs).2 ops

theorem takeWhile_append_of_forall {A B : List (Int × V)} {key : Int}
    (hA : ∀ a ∈ A, a.1 < key) (hB : ∀ b ∈ B.head?, ¬ b.1 < key) :
    (A ++ B).takeWhile (fun pair => decide (pair.1 < key)) = A := by
  induction A with
  | nil =>
    cases B with
    | nil => rfl
    | cons b B => simp [List.takeWhile_cons, hB b rfl]
  | cons a A ih =>
    simp [List.takeWhile_cons, hA a (List.mem_cons_self _ _),
      ih fun a' ha' => hA a' (List.mem_cons_of_mem _ ha')]

theorem dropWhile_append_of_forall {A B : List (Int × V)} {key : Int}
    (hA : ∀ a ∈ A, a.1 < key) (hB : ∀ b ∈ B.head?, ¬ b.1 < key) :
    (A ++ B).dropWhile (fun pair => decide (pair.1 < key)) = B := by
  induction A with
  | nil =>
    cases B with
    | nil => rfl
    | cons b B => simp [List.dropWhile_cons, hB b rfl]
  | cons a A ih =>
    simp [List.dropWhile_cons, hA a (List.mem_cons_self _ _),
      ih fun a' ha' => hA a' (List.mem_cons_of_mem _ ha')]

/-- A pair put in somewhere, leaving the keys increasing, is put in where `mapInsert` puts it. -/
theorem BPlusTree.Inserts.eq_mapInsert {key : Int} {value : V} {old new : List (Int × V)}
    (h : BPlusTree.Inserts (key, value) old new) (hsort : (new.map (·.1)).Pairwise (· < ·)) :
    new = (mapInsert key value old).2 ∧ key ∉ old.map (·.1) := by
  obtain ⟨A, B, rfl, rfl⟩ := h
  simp only [List.map_append, List.map_cons, List.pairwise_append, List.pairwise_cons,
    List.mem_map, List.mem_cons] at hsort
  obtain ⟨-, ⟨hkB, -⟩, hAk⟩ := hsort
  have hA : ∀ a ∈ A, a.1 < key := fun a ha => hAk _ ⟨a, ha, rfl⟩ _ (.inl rfl)
  have hB : ∀ b ∈ B, key < b.1 := fun b hb => hkB _ ⟨b, hb, rfl⟩
  have hnot : key ∉ (A ++ B).map (·.1) := by
    simp only [List.map_append, List.mem_append, List.mem_map, not_or, not_exists, not_and]
    exact ⟨fun a ha h => Int.lt_irrefl _ (h ▸ hA a ha),
      fun b hb h => Int.lt_irrefl _ (h ▸ hB b hb)⟩
  have hhead : ∀ b ∈ B.head?, ¬ b.1 < key := fun b hb =>
    Int.not_lt.mpr (Int.le_of_lt (hB b (List.mem_of_mem_head? hb)))
  refine ⟨?_, hnot⟩
  rw [mapInsert, if_neg hnot, takeWhile_append_of_forall hA hhead,
    dropWhile_append_of_forall hA hhead]

end Sorted

/-! ## The leaf -/

namespace LeafPage

variable {V : Type} [Inhabited V]

section Insert

variable (page : LeafPage V) {key : Int} (value : V)
  (hlen : page.header.size ≤ page.array.length) (hnot : key ∉ page.valid.map (·.1))
include hlen hnot

theorem exists_insert_eq : ∃ leaf, page.insert key value = (leaf, page.header.size + 1) :=
  ⟨_, Prod.ext rfl (page.insert_of_not_mem value hlen hnot).1⟩

/-- `Insert` of a key the page lacks keeps its keys increasing. -/
theorem insert_sorted (hsort : (page.valid.map (·.1)).Pairwise (· < ·)) :
    ((page.insert key value).1.valid.map (·.1)).Pairwise (· < ·) := by
  obtain ⟨hA, hB⟩ := page.keyIndex_split key hsort
  rw [← List.take_append_drop (page.keyIndex key) page.valid, List.map_append,
    List.pairwise_append] at hsort
  rw [(page.insert_of_not_mem value hlen hnot).2.2, List.map_append, List.map_cons,
    List.pairwise_append, List.pairwise_cons]
  refine ⟨hsort.1, ⟨fun b hb => ?_, hsort.2.1⟩, fun a ha b hb => ?_⟩
  · obtain ⟨y, hy, rfl⟩ := List.mem_map.mp hb
    refine lt_of_le_of_ne (hB y hy) fun h => hnot ?_
    exact List.mem_map.mpr ⟨y, List.mem_of_mem_drop hy, h.symm⟩
  · obtain ⟨x, hx, rfl⟩ := List.mem_map.mp ha
    rcases List.mem_cons.mp hb with rfl | hb
    · exact hA x hx
    · exact hsort.2.2 _ (List.mem_map_of_mem _ hx) _ hb

/-- `Insert` of a key within bounds that hold the page's keys keeps every key within them. -/
theorem insert_inBounds {lo hi : Option Int}
    (hbound : ∀ x ∈ page.valid, Node.inBounds lo hi x.1 = true)
    (hkey : Node.inBounds lo hi key = true) :
    ∀ x ∈ (page.insert key value).1.valid, Node.inBounds lo hi x.1 = true := by
  rw [(page.insert_of_not_mem value hlen hnot).2.2]
  intro x hx
  rcases List.mem_append.mp hx with hx | hx
  · exact hbound x (List.mem_of_mem_take hx)
  · rcases List.mem_cons.mp hx with rfl | hx
    · exact hkey
    · exact hbound x (List.mem_of_mem_drop hx)

/-- A leaf that takes a key it lacks, within its bounds, and stays below `leaf_max_size_` still
fits its place. -/
theorem leafFits_insert {lm : Nat} {lo hi : Option Int} {parentId : Int} {isRoot : Bool}
    {pageId : Int} (hfits : Node.LeafFits lm lo hi parentId isRoot pageId page)
    (hkey : Node.inBounds lo hi key = true) (hroom : page.header.size + 1 < lm) :
    Node.LeafFits lm lo hi parentId isRoot pageId (page.insert key value).1 := by
  obtain ⟨hid, hparent, hmax, -, hsort, hbound, -, hmin⟩ := hfits
  obtain ⟨hsize, hlen', -⟩ := page.insert_of_not_mem value hlen hnot
  have hhdr := page.insert_header key value
  rw [hsize] at hhdr
  simp only [Node.LeafFits, hhdr]
  refine ⟨hid, hparent, hmax, hlen', page.insert_sorted value hlen hnot hsort,
    page.insert_inBounds value hlen hnot hbound hkey, hroom, ?_⟩
  cases isRoot <;> simp only [if_true, if_false, Bool.false_eq_true] at hmin ⊢ <;> omega

end Insert

/-- `Insert` leaves the leaf's link to the next leaf as it was. -/
theorem insert_nextPageId (page : LeafPage V) (key : Int) (value : V) :
    (page.insert key value).1.nextPageId = page.nextPageId := by
  simp only [insert]
  split <;> rfl

omit [Inhabited V] in
/-- The pairs of a list with increasing keys lie below the key at slot `m` before it, and at or
above it from it on. -/
theorem take_lt_drop_le {l : List (Int × V)} (hsort : (l.map (·.1)).Pairwise (· < ·)) {m : Nat}
    (hm : m < l.length) : (∀ x ∈ l.take m, x.1 < l[m].1) ∧ ∀ x ∈ l.drop m, l[m].1 ≤ x.1 := by
  have hsplit := List.take_append_drop m l
  rw [List.drop_eq_getElem_cons hm] at hsplit
  rw [List.pairwise_map, ← hsplit, List.pairwise_append, List.pairwise_cons] at hsort
  rw [List.drop_eq_getElem_cons hm]
  refine ⟨fun x hx => hsort.2.2 x hx _ (List.mem_cons_self _ _), fun x hx => ?_⟩
  rcases List.mem_cons.mp hx with rfl | hx
  · exact Int.le_refl _
  · exact Int.le_of_lt (hsort.2.1.1 x hx)

section Halves

variable (leaf : LeafPage V) (hsize : leaf.header.size = leaf.header.maxSize)
  (hlen : leaf.header.size ≤ leaf.array.length)

/-- The leaf that `MoveHalfTo` leaves behind, linked to `s`. -/
def lowerHalf (s : Int) : LeafPage V :=
  { leaf with header := { leaf.header with size := leaf.header.size -
      (leaf.header.maxSize - leaf.header.maxSize / 2) }, nextPageId := s }

/-- The new leaf `s` under `parentId`, of `maxSize` pairs at most, once `MoveHalfTo` has filled
it. -/
def upperHalf (s parentId : Int) (maxSize : Nat) : LeafPage V :=
  (LeafPage.new s parentId maxSize).copyNFrom
    (Slots.slots leaf.array (leaf.header.maxSize / 2) (leaf.header.maxSize - leaf.header.maxSize / 2))

omit [Inhabited V] in
include hsize in
/-- A full leaf keeps its first `GetMinSize()` pairs. -/
theorem valid_lowerHalf (s : Int) :
    (leaf.lowerHalf s).valid = leaf.valid.take (leaf.header.maxSize / 2) := by
  simp only [lowerHalf, valid, List.take_take, hsize]
  congr 1
  omega

theorem upperHalf_array (s parentId : Int) (maxSize : Nat) :
    (leaf.upperHalf s parentId maxSize).array = Slots.slots leaf.array (leaf.header.maxSize / 2)
      (leaf.header.maxSize - leaf.header.maxSize / 2) := by
  simpa [upperHalf, copyNFrom, new] using Slots.copyFrom_length ([] : List (Int × V))
    (Slots.slots leaf.array (leaf.header.maxSize / 2) (leaf.header.maxSize - leaf.header.maxSize / 2))

theorem upperHalf_size (s parentId : Int) (maxSize : Nat) :
    (leaf.upperHalf s parentId maxSize).header.size =
      leaf.header.maxSize - leaf.header.maxSize / 2 := by
  simp [upperHalf, copyNFrom, new, Slots.slots]

include hsize hlen in
/-- The new leaf takes the pairs of the full leaf from slot `GetMinSize()` on. -/
theorem valid_upperHalf (s parentId : Int) (maxSize : Nat) :
    (leaf.upperHalf s parentId maxSize).valid = leaf.valid.drop (leaf.header.maxSize / 2) := by
  rw [valid, upperHalf_array, upperHalf_size, Slots.slots_eq (by omega), valid, List.drop_take,
    hsize, List.take_take, Nat.min_self]

/-- The new leaf's key in slot 0, which goes up to the parent, is the key in slot
`GetMinSize()` of the full leaf. -/
theorem keyAt_upperHalf (s parentId : Int) (maxSize : Nat) (hpos : 1 ≤ leaf.header.maxSize) :
    (leaf.upperHalf s parentId maxSize).keyAt 0 = leaf.keyAt (leaf.header.maxSize / 2) := by
  have hn : 0 < leaf.header.maxSize - leaf.header.maxSize / 2 := by omega
  rw [keyAt, upperHalf_array, Slots.read, List.getD_eq_getElem _ _ (by simpa [Slots.slots] using hn)]
  simp [Slots.slots, Slots.read, keyAt]

include hsize hlen in
/-- The two halves of a full leaf with increasing keys within `lo` and `hi` fit the places on
either side of the key that goes up: the lower half below it, the new leaf from it on. -/
theorem halves_fit {lm : Nat} (hlm : 2 ≤ lm) {lo hi : Option Int} {parentId pageId : Int} (s r : Int)
    (hmax : leaf.header.maxSize = lm) (hid : leaf.header.pageId = pageId)
    (hparent : leaf.header.parentPageId = parentId)
    (hsort : (leaf.valid.map (·.1)).Pairwise (· < ·))
    (hbound : ∀ x ∈ leaf.valid, Node.inBounds lo hi x.1 = true) :
    Node.LeafFits lm lo (some (leaf.keyAt (lm / 2))) parentId false pageId (leaf.lowerHalf s) ∧
      Node.LeafFits lm (some (leaf.keyAt (lm / 2))) hi parentId false r
        (leaf.upperHalf r parentId lm) := by
  have hm : lm / 2 < leaf.valid.length := by rw [leaf.length_valid hlen]; omega
  obtain ⟨hlt, hge⟩ := take_lt_drop_le hsort hm
  rw [keyAt, leaf.read_eq_valid hm]
  refine ⟨⟨hid, hparent, hmax, by simp [lowerHalf]; omega, ?_, fun x hx => ?_,
    by simp [lowerHalf]; omega, by simp [lowerHalf]; omega⟩,
    ⟨rfl, rfl, rfl, by simp [upperHalf_array, upperHalf_size, Slots.slots], ?_, fun x hx => ?_,
    by simp [upperHalf_size]; omega, by simp [upperHalf, copyNFrom, new, Slots.slots]; omega⟩⟩
  · rw [valid_lowerHalf leaf hsize, hmax]
    exact hsort.sublist ((List.take_sublist _ _).map _)
  · rw [valid_lowerHalf leaf hsize, hmax] at hx
    refine Node.inBounds_iff.mpr ⟨(Node.inBounds_iff.mp (hbound x (List.mem_of_mem_take hx))).1,
      fun h hh => ?_⟩
    exact Option.some_inj.mp hh ▸ hlt x hx
  · rw [valid_upperHalf leaf hsize hlen, hmax]
    exact hsort.sublist ((List.drop_sublist _ _).map _)
  · rw [valid_upperHalf leaf hsize hlen, hmax] at hx
    refine Node.inBounds_iff.mpr ⟨fun l hl => ?_,
      (Node.inBounds_iff.mp (hbound x (List.mem_of_mem_drop hx))).2⟩
    exact Option.some_inj.mp hl ▸ hge x hx

end Halves

end LeafPage

/-! ## One call -/

namespace BPlusTree

variable {V : Type} [Inhabited V] {t : BPlusTree V} {fuel : Nat} {N : Node V}

omit [Inhabited V] in
/-- A leaf page unfolds to itself. -/
theorem unfold_succ_of_leaf {p : Int} {page : LeafPage V} (hp : t.pageAt p = some (.leaf page)) :
    t.unfold (fuel + 1) p = some (.leaf p page) := by
  simp only [unfold, hp]

/-- The leaf `leafId` that `GetLeafPage(key)` reaches in the tree `N` that `t` holds within `fuel`
levels: placed at depth `d` with the bounds `lo` and `hi`, which hold `key`, and with the pairs of
`N` before it below `lo` and those after it at or above `hi`. -/
structure LeafFor (t : BPlusTree V) (fuel : Nat) (N : Node V) (key leafId : Int)
    (lo hi : Option Int) (parentId : Int) (isRoot : Bool) (d : Nat) (page : LeafPage V) :
    Prop where
  placed : t.Placed leafId lo hi parentId isRoot d
  depth : d < fuel
  leafAt : t.leafAt leafId = some page
  unfold : t.unfold (fuel - d) leafId = some (.leaf leafId page)
  fits : Node.LeafFits t.leafMaxSize lo hi parentId isRoot leafId page
  id : leafId ≠ invalidPageId ∧ leafId < t.store.nextPageId
  key : Node.inBounds lo hi key = true
  context : ∃ EA EB, N.entries = EA ++ page.valid ++ EB ∧ (∀ x ∈ EA, ∃ l ∈ lo, x.1 < l) ∧
    ∀ x ∈ EB, ∃ u ∈ hi, u ≤ x.1

omit [Inhabited V] in
/-- On a well-formed tree, `GetLeafPage(key)` with at least the tree's fuel reaches the leaf the
key belongs in. -/
theorem getLeafPage_leafFor (hw : t.WellFormedAs fuel N) (hlm : 2 ≤ t.leafMaxSize)
    (him : 1 ≤ t.internalMaxSize) (key : Int) {F : Nat} (hF : fuel ≤ F) :
    ∃ leafId lo hi parentId isRoot d page, t.getLeafPage key F = some leafId ∧
      t.LeafFor fuel N key leafId lo hi parentId isRoot d page := by
  obtain ⟨leafId, lo, hi, parentId, isRoot, d, page, hleafId, hp, hleaf, hkey⟩ :=
    Placed.descend hw.unfold hw.pagesOk him Placed.root (Nat.sub_zero fuel)
      (show Node.inBounds none none key from rfl)
  obtain ⟨hd, Q, hQ, hQok, hsub⟩ := hp.unfold hw.unfold hw.pagesOk
  obtain ⟨EA, EB, hE, hEA, hEB⟩ := hp.context hw.unfold hw.pagesOk hlm him hQ
  obtain ⟨k, hk⟩ : ∃ k, fuel - d = k + 1 := ⟨fuel - d - 1, by omega⟩
  cases unfold_succ_leaf (hk ▸ hQ) hleaf
  have hF' := getLeafPageFrom_add hleafId (F - fuel)
  rw [Nat.add_sub_of_le hF] at hF'
  exact ⟨leafId, lo, hi, parentId, isRoot, d, page, hF', hp, hd, hleaf, hQ,
    Node.pagesOk_leaf_iff.mp hQok, hw.ids leafId (hsub.subset (List.mem_singleton_self _)), hkey,
    EA, EB, hE, hEA, hEB⟩

section LeafFor

variable {key leafId : Int} {lo hi : Option Int} {parentId : Int} {isRoot : Bool} {d : Nat}
  {page : LeafPage V} (h : t.LeafFor fuel N key leafId lo hi parentId isRoot d page)
include h

omit [Inhabited V] in
/-- The tree holds `key` exactly when the leaf it belongs in does. -/
theorem LeafFor.mem_iff : key ∈ N.entries.map (·.1) ↔ key ∈ page.valid.map (·.1) := by
  obtain ⟨EA, EB, hE, hEA, hEB⟩ := h.context
  have hkey := Node.inBounds_iff.mp h.key
  rw [hE, List.map_append, List.map_append, List.mem_append, List.mem_append]
  refine ⟨fun hmem => ?_, fun hmem => .inl (.inr hmem)⟩
  rcases hmem with (hA | hL) | hB
  · obtain ⟨x, hx, hxkey⟩ := List.mem_map.mp hA
    obtain ⟨l, hl, hlt⟩ := hEA x hx
    exact absurd (hkey.1 l hl) (Int.not_le.mpr (hxkey ▸ hlt))
  · exact hL
  · obtain ⟨x, hx, hxkey⟩ := List.mem_map.mp hB
    obtain ⟨u, hu, hle⟩ := hEB x hx
    exact absurd (hkey.2 u hu) (Int.not_lt.mpr (hxkey ▸ hle))

variable {F : Nat} (hleafId : t.getLeafPage key F = some leafId) (value : V)
include hleafId

/-- `InsertIntoLeaf` of a key the leaf holds returns false and leaves the store as it was. -/
theorem LeafFor.insertIntoLeaf_of_mem (hmem : key ∈ page.valid.map (·.1)) :
    t.insertIntoLeaf key value F = some (false, t) := by
  obtain ⟨-, -, -, hlen, hsort, -⟩ := h.fits
  simp only [insertIntoLeaf, hleafId, h.leafAt, page.insert_of_mem value hlen hsort hmem,
    Option.bind_eq_bind, Option.some_bind, if_true]
  rw [setLeaf, setPage_pageAt (pageAt_of_leafAt h.leafAt)]
  rfl

variable (hw : t.WellFormedAs fuel N) (hnot : key ∉ page.valid.map (·.1))
include hw hnot

/-- `InsertIntoLeaf` of a key the leaf lacks, where the leaf stays below `leaf_max_size_`, returns
true and leaves the tree with the pair put in. -/
theorem LeafFor.insertIntoLeaf_room (hroom : page.header.size + 1 < t.leafMaxSize) :
    ∃ u, t.insertIntoLeaf key value F = some (true, u) ∧ Inserted t fuel N (key, value) u := by
  have hlen := h.fits.2.2.2.1
  have hfits := page.leafFits_insert value hlen hnot h.fits h.key hroom
  have hvalid := (page.insert_of_not_mem value hlen hnot).2.2
  have hnextId := page.insert_nextPageId key value
  obtain ⟨leaf, hins⟩ := page.exists_insert_eq value hlen hnot
  simp only [hins] at hfits hvalid hnextId
  obtain ⟨k, hk⟩ : ∃ k, fuel - d = k + 1 := ⟨fuel - d - 1, by have := h.depth; omega⟩
  refine ⟨t.setLeaf leafId leaf, ?_, inserted_of_replace hw h.placed h.unfold
    (frame_setPage (.inl (.refl _)) _) (M := .leaf leafId leaf)
    (by rw [hk]; exact unfold_succ_of_leaf (pageAt_setLeaf_self _ _))
    (Node.pagesOk_leaf_iff.mpr hfits) (List.nodup_singleton _) ?_
    ⟨_, _, (List.take_append_drop _ _).symm, hvalid⟩ ?_⟩
  · simp only [insertIntoLeaf, hleafId, h.leafAt, hins, Option.bind_eq_bind, Option.some_bind]
    rw [if_neg (by omega),
      if_pos (show page.header.size + 1 < (t.setLeaf leafId leaf).leafMaxSize from hroom)]
    rfl
  · intro y hy
    rw [List.mem_singleton.mp hy]
    exact ⟨h.id.1, h.id.2, .inl (.refl _)⟩
  · show ChainKept [(leafId, page.nextPageId)] [(leafId, leaf.nextPageId)]
    rw [hnextId]
    exact fun _ _ hl => hl

/-- `InsertIntoLeaf` of a key the leaf lacks, where the leaf reaches `leaf_max_size_`, splits it
and climbs: it returns true and leaves the tree with the pair put in. -/
theorem LeafFor.insertIntoLeaf_full (hlm : 2 ≤ t.leafMaxSize) (him : 2 ≤ t.internalMaxSize)
    (hnext : 0 ≤ t.store.nextPageId) (hfull : ¬ page.header.size + 1 < t.leafMaxSize)
    (hdF : d < F) :
    ∃ u, t.insertIntoLeaf key value F = some (true, u) ∧ Inserted t fuel N (key, value) u := by
  obtain ⟨hid, hparent, hmax, hlen, hsort, hbound, hlt, -⟩ := h.fits
  obtain ⟨leaf, hins⟩ := page.exists_insert_eq value hlen hnot
  have hleaf : (page.insert key value).1 = leaf := by rw [hins]
  have hhdr := page.insert_header key value
  simp only [hins] at hhdr
  have hsorted := page.insert_sorted value hlen hnot hsort
  have hbounds := page.insert_inBounds value hlen hnot hbound h.key
  have hnextId := page.insert_nextPageId key value
  obtain ⟨-, hlen', hvalid⟩ := page.insert_of_not_mem value hlen hnot
  rw [hleaf] at hsorted hbounds hnextId hlen' hvalid
  have hsize : leaf.header.size = leaf.header.maxSize := by rw [hhdr]; dsimp only; omega
  have hlenL : leaf.header.size ≤ leaf.array.length := by rw [hhdr]; exact hlen'
  have hmaxL : leaf.header.maxSize = t.leafMaxSize := by rw [hhdr]; exact hmax
  have hparentL : leaf.header.parentPageId = parentId := by rw [hhdr]; exact hparent
  obtain ⟨hfitsL, hfitsR⟩ := leaf.halves_fit hsize hlenL hlm t.store.nextPageId t.store.nextPageId
    hmaxL (show leaf.header.pageId = leafId by rw [hhdr]; exact hid) hparentL hsorted hbounds
  obtain ⟨u, heq, hframe, hunext, hL, hR⟩ :=
    insertIntoLeaf_split hleafId h.leafAt (Int.ne_of_lt h.id.2) hins hfull
  rw [hparentL] at hR
  obtain ⟨k, hk⟩ : ∃ k, fuel - d = k + 1 := ⟨fuel - d - 1, by have := h.depth; omega⟩
  have hc : Climb t u fuel d leafId lo hi parentId (.leaf leafId page) (key, value)
      (leaf.keyAt (t.leafMaxSize / 2)) t.store.nextPageId
      (.leaf leafId (leaf.lowerHalf t.store.nextPageId))
      (.leaf t.store.nextPageId { leaf.upperHalf t.store.nextPageId parentId t.leafMaxSize with
        nextPageId := leaf.nextPageId }) := by
    refine ⟨hframe.mono fun _ => Or.imp (fun hq => hq ▸ .refl _) fun hq => hq ▸ Int.le_refl _,
      Int.le_refl _, by rw [hk]; exact unfold_succ_of_leaf hL,
      by rw [hk]; exact unfold_succ_of_leaf hR, Node.pagesOk_leaf_iff.mpr hfitsL,
      Node.pagesOk_leaf_iff.mpr hfitsR, ?_, ?_, ?_, ?_⟩
    · simpa [Node.pageIds] using Int.ne_of_lt h.id.2
    · intro y hy
      simp only [Node.pageIds, List.singleton_append, List.mem_cons, List.not_mem_nil, or_false]
        at hy
      rw [hunext]
      rcases hy with rfl | rfl
      · exact ⟨h.id.1, by have := h.id.2; omega, .inl (.refl _)⟩
      · exact ⟨ne_invalidPageId hnext, by omega, .inr (Int.le_refl _)⟩
    · show Inserts (key, value) page.valid
        ((leaf.lowerHalf t.store.nextPageId).valid ++
          (leaf.upperHalf t.store.nextPageId parentId t.leafMaxSize).valid)
      rw [leaf.valid_lowerHalf hsize, leaf.valid_upperHalf hsize hlenL, List.take_append_drop,
        hvalid]
      exact ⟨_, _, (List.take_append_drop _ _).symm, rfl⟩
    · show ChainKept [(leafId, page.nextPageId)]
        ([(leafId, t.store.nextPageId)] ++ [(t.store.nextPageId, leaf.nextPageId)])
      intro X Y hl
      rw [hnextId]
      simpa only [List.append_assoc, List.singleton_append, List.cons_append, List.nil_append,
        Node.linked_split] using hl
  obtain ⟨u', hu', hI⟩ := Placed.climb hw hlm him hnext h.placed h.unfold hc hdF
  have hsep := leaf.keyAt_upperHalf t.store.nextPageId leaf.header.parentPageId t.leafMaxSize
    (by omega)
  simp only [LeafPage.upperHalf] at hsep
  exact ⟨u', by rw [heq, hsep, hmaxL, hu']; rfl, hI⟩

end LeafFor

/-! ## `Insert` on the tree -/

section Insert

variable (value : V) {F : Nat}

/-- `Insert` of a key the tree lacks returns true and leaves the tree with the pair put in. -/
theorem insert_of_not_mem (hw : t.WellFormedAs fuel N) (hlm : 2 ≤ t.leafMaxSize)
    (him : 2 ≤ t.internalMaxSize) (hnext : 0 ≤ t.store.nextPageId) {key : Int}
    (hkey : key ∉ N.entries.map (·.1)) (hF : fuel ≤ F) :
    ∃ u, t.insert key value F = some (true, u) ∧ Inserted t fuel N (key, value) u := by
  obtain ⟨leafId, lo, hi, parentId, isRoot, d, page, hleafId, h⟩ :=
    getLeafPage_leafFor hw hlm (by omega) key hF
  have hnot : key ∉ page.valid.map (·.1) := fun hmem => hkey (h.mem_iff.mpr hmem)
  simp only [insert, hw.isEmpty_eq_false, Bool.false_eq_true, if_false]
  by_cases hroom : page.header.size + 1 < t.leafMaxSize
  · exact h.insertIntoLeaf_room hleafId value hw hnot hroom
  · exact h.insertIntoLeaf_full hleafId value hw hnot hlm him hnext hroom
      (by have := h.depth; omega)

/-- `Insert` of a key the tree holds returns false and changes nothing. -/
theorem insert_of_mem (hw : t.WellFormedAs fuel N) (hlm : 2 ≤ t.leafMaxSize)
    (him : 1 ≤ t.internalMaxSize) {key : Int} (hkey : key ∈ N.entries.map (·.1)) (hF : fuel ≤ F) :
    t.insert key value F = some (false, t) := by
  obtain ⟨leafId, lo, hi, parentId, isRoot, d, page, hleafId, h⟩ :=
    getLeafPage_leafFor hw hlm him key hF
  simp only [insert, hw.isEmpty_eq_false, Bool.false_eq_true, if_false]
  exact h.insertIntoLeaf_of_mem hleafId value (h.mem_iff.mp hkey)

/-- `StartNewTree`: `Insert` on the empty tree returns true and leaves a root leaf, at the id
`NewPage` gives, that holds the pair alone. -/
theorem insert_of_isEmpty (hempty : t.isEmpty = true) (hlm : 2 ≤ t.leafMaxSize)
    (hnext : 0 ≤ t.store.nextPageId) (key : Int) (F : Nat) :
    t.insert key value F = some (true, t.startNewTree key value) ∧
      (t.startNewTree key value).Holds 1 [(key, value)] := by
  have hins : (LeafPage.new t.store.nextPageId invalidPageId t.leafMaxSize).insert key value =
      (⟨⟨1, t.leafMaxSize, invalidPageId, t.store.nextPageId⟩, invalidPageId, [(key, value)]⟩, 1) := by
    rw [LeafPage.insert_of_lt key value (by simp [LeafPage.new])
      (by simp [LeafPage.valid, LeafPage.new])]
    simp [LeafPage.new, Slots.write]
  have hpage : (t.startNewTree key value).pageAt t.store.nextPageId = some (.leaf
      ⟨⟨1, t.leafMaxSize, invalidPageId, t.store.nextPageId⟩, invalidPageId, [(key, value)]⟩) := by
    simp [startNewTree, newPage, hins]
  refine ⟨by simp [insert, hempty], .inr ⟨_, ⟨unfold_succ_of_leaf hpage,
    Node.pagesOk_leaf_iff.mpr ⟨rfl, rfl, rfl, Nat.le_refl _, by simp [LeafPage.valid],
      by simp [LeafPage.valid], by show 1 < t.leafMaxSize; omega, by simp⟩,
    rfl, List.nodup_singleton _, fun q hq => ?_⟩, rfl⟩⟩
  rw [List.mem_singleton.mp hq]
  exact ⟨ne_invalidPageId hnext, Int.lt_succ _⟩

end Insert

/-! ## Refinement -/

section Refinement

variable (hlm : 2 ≤ t.leafMaxSize) (him : 2 ≤ t.internalMaxSize) (hnext : 0 ≤ t.store.nextPageId)
include hlm him hnext

/-- `Insert(key, value)` on a tree that holds a map, with fuel at least the tree's, returns
whether the map lacked `key`, and leaves a tree with the same page sizes that holds, within one
level more, the map with the pair put in. -/
theorem Holds.insert {pairs : List (Int × V)} (h : t.Holds fuel pairs) (key : Int) (value : V)
    {F : Nat} (hF : fuel ≤ F) :
    ∃ u, t.insert key value F = some ((mapInsert key value pairs).1, u) ∧
      u.Holds (fuel + 1) (mapInsert key value pairs).2 ∧ u.leafMaxSize = t.leafMaxSize ∧
      u.internalMaxSize = t.internalMaxSize ∧ t.store.nextPageId ≤ u.store.nextPageId := by
  rcases h with ⟨hempty, rfl⟩ | ⟨N, hw, rfl⟩
  · obtain ⟨hu, hholds⟩ := insert_of_isEmpty value hempty hlm hnext key F
    have hholds' := hholds.mono fuel
    rw [Nat.add_comm] at hholds'
    exact ⟨_, hu, hholds', rfl, rfl, Int.le_of_lt (Int.lt_succ _)⟩
  · by_cases hkey : key ∈ N.entries.map (·.1)
    · rw [mapInsert, if_pos hkey]
      exact ⟨t, insert_of_mem value hw hlm (by omega) hkey hF, Holds.mono (.inr ⟨N, hw, rfl⟩) 1,
        rfl, rfl, Int.le_refl _⟩
    · obtain ⟨u, hu, hI⟩ := insert_of_not_mem value hw hlm him hnext hkey hF
      obtain ⟨N', hN', hins⟩ := hI.tree
      have hsort := (unfold_inRange (by rw [hI.leafMaxSize]; exact hlm)
        (by rw [hI.internalMaxSize]; omega) hN'.unfold hN'.pagesOk).2.1
      refine ⟨u, ?_, .inr ⟨N', hN', (hins.eq_mapInsert hsort).1⟩, hI.leafMaxSize,
        hI.internalMaxSize, hI.nextPageId⟩
      rw [mapInsert, if_neg hkey]
      exact hu

/-- A run of `Insert` calls on a tree that holds a map, with fuel for the tree and one level
more per call, succeeds at every call and leaves a tree with the same page sizes that holds the
map built by the same inserts. -/
theorem Holds.insertAll {pairs : List (Int × V)} (h : t.Holds fuel pairs) (ops : List (Int × V))
    {F : Nat} (hF : fuel + ops.length ≤ F) :
    ∃ u, t.insertAll F ops = some u ∧ u.Holds (fuel + ops.length) (mapInsertAll pairs ops) ∧
      u.leafMaxSize = t.leafMaxSize ∧ u.internalMaxSize = t.internalMaxSize := by
  induction ops generalizing t fuel pairs with
  | nil => exact ⟨t, rfl, h, rfl, rfl⟩
  | cons op ops ih =>
    obtain ⟨key, value⟩ := op
    rw [List.length_cons] at hF
    obtain ⟨u, hu, hholds, hulm, huim, hunext⟩ := h.insert hlm him hnext key value (F := F)
      (by omega)
    obtain ⟨u', hu', hholds', hlm', him'⟩ := ih (by rw [hulm]; exact hlm) (by rw [huim]; exact him)
      (Int.le_trans hnext hunext) hholds (by omega)
    refine ⟨u', by simp [BPlusTree.insertAll, hu, hu'], ?_, hlm'.trans hulm, him'.trans huim⟩
    rw [List.length_cons, ← Nat.add_assoc, Nat.add_right_comm]
    exact hholds'

end Refinement

/-- `Insert(key, value)` on a tree that holds a map, with fuel at least the tree's height,
returns false if the map holds `key`, and true otherwise, and leaves a tree that holds the map
with the pair put before the first larger key, or the map unchanged if it held `key`. -/
theorem insert_refines (hlm : 2 ≤ t.leafMaxSize) (him : 2 ≤ t.internalMaxSize)
    (hnext : 0 ≤ t.store.nextPageId) {pairs : List (Int × V)} (h : t.Holds fuel pairs)
    (key : Int) (value : V) {F : Nat} (hF : fuel ≤ F) :
    ∃ u, t.insert key value F = some ((mapInsert key value pairs).1, u) ∧
      u.Holds (fuel + 1) (mapInsert key value pairs).2 ∧ u.leafMaxSize = t.leafMaxSize ∧
      u.internalMaxSize = t.internalMaxSize :=
  (h.insert hlm him hnext key value hF).imp fun _ hu => ⟨hu.1, hu.2.1, hu.2.2.1, hu.2.2.2.1⟩

/-- A root leaf that holds the keys 1 and 2 under `leaf_max_size` 3 reaches it with the key 3,
splits under a new root, and the tree holds the three pairs. -/
theorem insert_refines_rootSplit :
    ∃ u, (⟨PageStore.ofPages [(0, .leaf ⟨⟨2, 3, -1, 0⟩, -1, [(1, 10), (2, 20)]⟩)] 1, 0, 3, 3, []⟩ :
        BPlusTree Nat).insert 3 30 1 = some ((mapInsert 3 30 [(1, 10), (2, 20)]).1, u) ∧
      u.Holds 2 (mapInsert 3 30 [(1, 10), (2, 20)]).2 ∧ u.leafMaxSize = 3 ∧ u.internalMaxSize = 3 := by
  apply insert_refines
  · decide
  · decide
  · decide
  · exact .inr ⟨_, ⟨rfl, by decide, by decide, by decide, by decide⟩, rfl⟩
  · decide

end BPlusTree

end Bustub
