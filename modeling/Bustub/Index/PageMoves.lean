import Bustub.Index.Split

/-!
# Moving pairs between two pages

`Redistribute` borrows a pair from a sibling with `MoveFirstToEnd` or `MoveLastToFront`,
`Coalesce` merges with `MoveAllTo`, and `Split` moves half a page with `MoveHalfTo`.  Each
shifts the slots of a page (`std::move`, `std::move_backward`) and copies into the other.  Read
as lists, on two distinct pages whose first `GetSize()` slots are written:

*Slots.*  A page's pairs after a move are pinned down by their number and by what each slot
reads (`Slots.take_eq_of_read`); each page operation of the moves then reads as a list
operation (`LeafPage.valid_removeFirst`, `LeafPage.valid_copyLastFrom`,
`LeafPage.valid_copyNFrom`, `LeafPage.valid_setFirst_shiftUp`).

*Leaves.*  `MoveLastToFront` puts the last pair at the front of the sibling
(`leafMoveLastToFront_valid`), `MoveAllTo` appends all pairs to it (`leafMoveAllTo_valid`), and
`MoveHalfTo` of a full leaf keeps the first `GetMinSize()` pairs and appends the others
(`leafMoveHalfTo_valid`).  `MoveFirstToEnd` keeps a reference to slot 0 across the shift, so the
sibling gets the pair that moved into slot 0, and the first pair is lost once the page holds two
(`leafMoveFirstToEnd_valid`).
-/

namespace Bustub

namespace Slots

variable {α : Type} [Inhabited α]

theorem le_length_moveForward :
    ∀ (n : Nat) (a : List α) (f d : Nat), a.length ≤ (moveForward a f d n).length
  | 0, _, _, _ => Nat.le_refl _
  | n + 1, a, f, d => by
    rw [moveForward]
    exact Nat.le_trans (by rw [length_write]; omega) (le_length_moveForward n _ _ _)

theorem add_length_le_length_copyFrom :
    ∀ (items a : List α) (d : Nat), d ≤ a.length → d + items.length ≤ (copyFrom a d items).length
  | [], _, _, h => h
  | x :: items, a, d, _ => by
    have := add_length_le_length_copyFrom items (write a d x) (d + 1) (by rw [length_write]; omega)
    rw [copyFrom, List.length_cons]
    omega

@[simp] theorem read_cons_zero (x : α) (l : List α) : read (x :: l) 0 = x := rfl

@[simp] theorem read_cons_succ (x : α) (l : List α) (j : Nat) : read (x :: l) (j + 1) = read l j :=
  rfl

theorem read_append (l₁ l₂ : List α) (j : Nat) :
    read (l₁ ++ l₂) j = if j < l₁.length then read l₁ j else read l₂ (j - l₁.length) := by
  unfold read
  split
  · exact List.getD_append _ _ _ _ ‹_›
  · exact List.getD_append_right _ _ _ _ (by omega)

theorem read_take {a : List α} {n j : Nat} (hj : j < n) : read (a.take n) j = read a j := by
  simp only [read, List.getD_eq_getElem?_getD, List.getElem?_take_of_lt hj]

/-- The first `n` slots, all written, are the list `l` when they read as `l` does. -/
theorem take_eq_of_read {a l : List α} {n : Nat} (hn : n ≤ a.length) (hl : l.length = n)
    (h : ∀ j < n, read a j = read l j) : a.take n = l := by
  rw [take_eq_map_read hn]
  apply List.ext_getElem (by simp [hl])
  intro j h₁ h₂
  rw [List.getElem_map, List.getElem_range, h j (by simpa using h₁), read_eq_getElem h₂]

end Slots

namespace LeafPage

variable {V : Type} [Inhabited V] {page : LeafPage V}

theorem read_valid {j : Nat} (hj : j < page.header.size) :
    Slots.read page.valid j = Slots.read page.array j :=
  Slots.read_take hj

/-- The shift of `MoveFirstToEnd` drops the first pair. -/
theorem valid_removeFirst (hlen : page.header.size ≤ page.array.length) :
    page.removeFirst.valid = page.valid.tail := by
  have hvalid := page.length_valid hlen
  refine Slots.take_eq_of_read
    (Nat.le_trans (by simp only [removeFirst]; omega) (Slots.le_length_moveForward _ _ _ _))
    (by simp [hvalid, removeFirst]) fun j hj => ?_
  have hshift := Slots.read_moveForward page.array 0 j (page.header.size - 1)
  simp only [Nat.zero_add, Nat.zero_le, true_and] at hshift
  simp only [removeFirst] at hj ⊢
  rw [hshift, if_pos hj, ← read_valid (by omega)]
  cases page.valid <;> rfl

/-- Slot 0 after the shift of `MoveFirstToEnd`: the second pair, or the first of a page of one. -/
theorem read_removeFirst_zero (hlen : page.header.size ≤ page.array.length) {a₀ : Int × V}
    {rest : List (Int × V)} (hvalid : page.valid = a₀ :: rest) :
    Slots.read page.removeFirst.array 0 = rest.headD a₀ := by
  have hsize : page.header.size = rest.length + 1 := by rw [← page.length_valid hlen, hvalid]; rfl
  have hshift := Slots.read_moveForward page.array 0 0 (page.header.size - 1)
  simp only [Nat.zero_add, Nat.le_refl, true_and] at hshift
  simp only [removeFirst]
  rw [hshift]
  cases rest with
  | nil => rw [if_neg (by simp [hsize]), ← read_valid (by omega), hvalid]; rfl
  | cons a₁ rest => rw [if_pos (by simp [hsize]), ← read_valid (by simp [hsize]), hvalid]; rfl

theorem valid_copyLastFrom (hlen : page.header.size ≤ page.array.length) (item : Int × V) :
    (page.copyLastFrom item).valid = page.valid ++ [item] := by
  have hvalid := page.length_valid hlen
  refine Slots.take_eq_of_read (by simp [copyLastFrom, Slots.length_write])
    (by simp [hvalid, copyLastFrom]) fun j hj => ?_
  simp only [copyLastFrom, Slots.read_write, Slots.read_append, hvalid] at hj ⊢
  by_cases hjs : j = page.header.size
  · simp [hjs]
  · rw [if_neg hjs, if_pos (by omega), read_valid (by omega)]

theorem valid_copyNFrom (hlen : page.header.size ≤ page.array.length) (items : List (Int × V)) :
    (page.copyNFrom items).valid = page.valid ++ items := by
  have hvalid := page.length_valid hlen
  refine Slots.take_eq_of_read (Slots.add_length_le_length_copyFrom _ _ _ hlen)
    (by simp [copyNFrom, hvalid]) fun j hj => ?_
  simp only [copyNFrom, Slots.read_copyFrom, Slots.read_append, hvalid] at hj ⊢
  by_cases hjs : j < page.header.size
  · rw [if_neg (by omega), if_pos hjs, read_valid hjs]
  · rw [if_pos ⟨by omega, hj⟩, if_neg hjs]

/-- `CopyFirstFrom(item)` puts the pair at the front. -/
theorem valid_setFirst_shiftUp (hlen : page.header.size ≤ page.array.length) (item : Int × V) :
    (page.shiftUp.setFirst item).valid = item :: page.valid := by
  have h := (Slots.take_insertAt item (Nat.zero_le _) hlen).2
  simp only [Nat.sub_zero, List.take_zero, List.drop_zero, List.nil_append] at h
  exact h

end LeafPage

namespace BPlusTree

variable {V : Type} [Inhabited V] {t : BPlusTree V} {p s : Int} {page sibling : LeafPage V}

/-- `MoveFirstToEnd(sibling)` of a leaf `a₀ :: rest`: the leaf keeps `rest`, and the sibling gets
the pair slot 0 holds after the shift, the second pair when there is one. -/
theorem leafMoveFirstToEnd_valid (hps : p ≠ s) (hp : t.leafAt p = some page)
    (hs : t.leafAt s = some sibling) (hslen : sibling.header.size ≤ sibling.array.length)
    (hlen : page.header.size ≤ page.array.length) {a₀ : Int × V} {rest : List (Int × V)}
    (hvalid : page.valid = a₀ :: rest) :
    ∃ t', t.leafMoveFirstToEnd p s = some t' ∧ Frame (fun q => q = p ∨ q = s) t t' ∧
      (t'.leafAt p).map LeafPage.valid = some rest ∧
      (t'.leafAt s).map LeafPage.valid = some (sibling.valid ++ [rest.headD a₀]) := by
  have h : t.leafMoveFirstToEnd p s = some ((t.setLeaf p page.removeFirst).setLeaf s
      (sibling.copyLastFrom (Slots.read page.removeFirst.array 0))) := by
    simp [leafMoveFirstToEnd, hp, hs, hps.symm]
  refine ⟨_, h, frame_leafMoveFirstToEnd h, ?_, ?_⟩
  · simp [hps, LeafPage.valid_removeFirst hlen, hvalid]
  · simp [LeafPage.valid_copyLastFrom hslen, LeafPage.read_removeFirst_zero hlen hvalid]

omit [Inhabited V] in
/-- Leaf 2, holding keys 3 and 4, lends its first pair to its left sibling, leaf 1, holding 1 and
2, as `Redistribute` does: leaf 1 gets key 4, and key 3 is in neither page. -/
theorem leafMoveFirstToEnd_lends_second :
    let t : BPlusTree Nat := ⟨PageStore.ofPages
      [(1, .leaf ⟨⟨2, 4, 0, 1⟩, 2, [(1, 10), (2, 20)]⟩),
        (2, .leaf ⟨⟨2, 4, 0, 2⟩, invalidPageId, [(3, 30), (4, 40)]⟩)] 3, 0, 4, 3, []⟩
    ∃ t', t.leafMoveFirstToEnd 2 1 = some t' ∧ Frame (fun q => q = 2 ∨ q = 1) t t' ∧
      (t'.leafAt 2).map LeafPage.valid = some [(4, 40)] ∧
      (t'.leafAt 1).map LeafPage.valid = some [(1, 10), (2, 20), (4, 40)] := by
  intro t
  exact leafMoveFirstToEnd_valid (t := t) (p := 2) (s := 1) (by decide) rfl rfl (by decide)
    (by decide) rfl

section Leaf

variable (hps : p ≠ s) (hp : t.leafAt p = some page) (hs : t.leafAt s = some sibling)
  (hslen : sibling.header.size ≤ sibling.array.length)
include hps hp hs hslen

/-- `MoveLastToFront(sibling)` of a leaf `init ++ [last]`: the leaf keeps `init`, and `last` goes
to the front of the sibling. -/
theorem leafMoveLastToFront_valid (hlen : page.header.size ≤ page.array.length)
    {init : List (Int × V)} {last : Int × V} (hvalid : page.valid = init ++ [last]) :
    ∃ t', t.leafMoveLastToFront p s = some t' ∧ Frame (fun q => q = p ∨ q = s) t t' ∧
      (t'.leafAt p).map LeafPage.valid = some init ∧
      (t'.leafAt s).map LeafPage.valid = some (last :: sibling.valid) := by
  have hsize : page.header.size = init.length + 1 := by
    rw [← page.length_valid hlen, hvalid, List.length_append, List.length_singleton]
  have hlast : Slots.read page.array (page.header.size - 1) = last := by
    rw [← LeafPage.read_valid (by omega), hvalid, Slots.read_append, if_neg (by omega)]
    simp [hsize]
  have h : t.leafMoveLastToFront p s = some
      (((t.setLeaf p { page with header := { page.header with size := page.header.size - 1 } })
        |>.setLeaf s sibling.shiftUp).setLeaf s (sibling.shiftUp.setFirst last)) := by
    simp [leafMoveLastToFront, hp, hs, hps.symm, hps, hlast]
  refine ⟨_, h, frame_leafMoveLastToFront h, ?_, ?_⟩
  · have hinit := congrArg (List.take init.length) hvalid
    rw [LeafPage.valid, List.take_take, List.take_left, hsize,
      Nat.min_eq_left (Nat.le_succ _)] at hinit
    simp [leafAt_setLeaf_ne _ hps, LeafPage.valid, hsize, hinit]
  · simp [LeafPage.valid_setFirst_shiftUp hslen]

/-- `MoveAllTo(sibling)` of a leaf: the leaf is left empty and its pairs are appended to the
sibling. -/
theorem leafMoveAllTo_valid :
    ∃ t', t.leafMoveAllTo p s = some t' ∧ Frame (fun q => q = p ∨ q = s) t t' ∧
      (t'.leafAt p).map LeafPage.valid = some [] ∧
      (t'.leafAt s).map LeafPage.valid = some (sibling.valid ++ page.valid) := by
  have h : t.leafMoveAllTo p s = some ((t.setLeaf s (sibling.copyNFrom page.valid)).setLeaf p
      { page with header := { page.header with size := 0 } }) := by
    simp [leafMoveAllTo, hp, hs, hps]
  refine ⟨_, h, frame_leafMoveAllTo h, by simp [LeafPage.valid], ?_⟩
  simp [hps.symm, LeafPage.valid_copyNFrom hslen]

/-- `MoveHalfTo(sibling)` of a leaf holding `GetMaxSize()` pairs: the leaf keeps the first
`GetMinSize()` and the others are appended to the sibling. -/
theorem leafMoveHalfTo_valid (hlen : page.header.size ≤ page.array.length)
    (hfull : page.header.size = page.header.maxSize) :
    ∃ t', t.leafMoveHalfTo p s = some t' ∧ Frame (fun q => q = p ∨ q = s) t t' ∧
      (t'.leafAt p).map LeafPage.valid =
        some (page.valid.take (TreePage.leaf page).getMinSize) ∧
      (t'.leafAt s).map LeafPage.valid =
        some (sibling.valid ++ page.valid.drop (TreePage.leaf page).getMinSize) := by
  have hmoved : Slots.slots page.array (page.header.maxSize / 2)
      (page.header.maxSize - page.header.maxSize / 2) = page.valid.drop (page.header.maxSize / 2) := by
    rw [Slots.slots_eq (by omega), LeafPage.valid, List.drop_take, hfull]
  have h : t.leafMoveHalfTo p s = some ((t.setLeaf s (sibling.copyNFrom
      (page.valid.drop (page.header.maxSize / 2)))).setLeaf p { page with header := { page.header with
        size := page.header.size - (page.header.maxSize - page.header.maxSize / 2) } }) := by
    simp [leafMoveHalfTo, hp, hs, hps, hmoved]
  refine ⟨_, h, (leafMoveHalfTo_spec hps hp hs h).1, ?_, ?_⟩
  · simp only [leafAt_setLeaf_self, Option.map_some', LeafPage.valid, List.take_take,
      TreePage.getMinSize_leaf]
    congr 2
    omega
  · simp [hps.symm, LeafPage.valid_copyNFrom hslen]

end Leaf

end BPlusTree

end Bustub
