import Bustub.Index.Placed

/-!
# Point lookups

The map a tree stands for is the list of the pairs of its leaves, left to right (`Node.entries`):
`Holds t fuel pairs` says that `t` is empty and `pairs` is `[]`, or that `t` is well formed within
`fuel` levels and its leaves hold `pairs`.

*Lookup.*  `GetValue(key)` descends from the root along `Lookup` to one leaf and looks the key up
in it.  On a well-formed tree that leaf's bounds hold the key (`Placed.descend`), the pairs before
it lie below its lower bound and the pairs after it at or above its upper bound
(`Placed.context`), so the leaf pairs the key with what the whole map pairs it with
(`getValue_eq_lookup`).

*Fuel.*  A descent that reaches a leaf reaches the same leaf with more fuel
(`getLeafPageFrom_add`), and a tree that holds a map within some fuel holds it within more
(`Holds.mono`).
-/

namespace Bustub

/-- A key within the bounds `lo` and `hi` is looked up among the pairs between them, when the
pairs before lie below `lo` and those after at or above `hi`. -/
theorem lookup_between {V : Type} {EA L EB : List (Int × V)} {lo hi : Option Int} {key : Int}
    (hEA : ∀ x ∈ EA, ∃ l ∈ lo, x.1 < l) (hEB : ∀ x ∈ EB, ∃ u ∈ hi, u ≤ x.1)
    (hkey : Node.inBounds lo hi key = true) :
    (EA ++ L ++ EB).lookup key = L.lookup key := by
  simp only [Node.inBounds_iff, Option.mem_def] at hkey
  have hA : EA.lookup key = none := List.lookup_eq_none_iff.mpr fun x hx => by
    obtain ⟨l, hl, hxl⟩ := hEA x hx
    simpa using Int.ne_of_gt (Int.lt_of_lt_of_le hxl (hkey.1 l hl))
  have hB : EB.lookup key = none := List.lookup_eq_none_iff.mpr fun x hx => by
    obtain ⟨u, hu, hux⟩ := hEB x hx
    simpa using Int.ne_of_lt (Int.lt_of_lt_of_le (hkey.2 u hu) hux)
  rw [List.lookup_append, List.lookup_append, hA, hB, Option.none_or]
  cases L.lookup key <;> rfl

namespace BPlusTree

variable {V : Type} [Inhabited V] {t : BPlusTree V}

/-- `t` is well formed within `fuel` levels, its root unfolding to the tree `N`: what
`WellFormedIn` says, with the tree named. -/
structure WellFormedAs (t : BPlusTree V) (fuel : Nat) (N : Node V) : Prop where
  unfold : t.unfold fuel t.rootPageId = some N
  pagesOk : N.pagesOk t.leafMaxSize t.internalMaxSize none none invalidPageId true = true
  chain : N.leafChainOk = true
  nodup : N.pageIds.Nodup
  ids : ∀ q ∈ N.pageIds, q ≠ invalidPageId ∧ q < t.store.nextPageId

omit [Inhabited V] in
theorem wellFormedIn_iff {fuel : Nat} : t.WellFormedIn fuel ↔ ∃ N, t.WellFormedAs fuel N :=
  ⟨fun ⟨N, h₁, h₂, h₃, h₄, h₅⟩ => ⟨N, h₁, h₂, h₃, h₄, h₅⟩,
    fun ⟨N, h₁, h₂, h₃, h₄, h₅⟩ => ⟨N, h₁, h₂, h₃, h₄, h₅⟩⟩

omit [Inhabited V] in
theorem WellFormedAs.succ {fuel : Nat} {N : Node V} (h : t.WellFormedAs fuel N) :
    t.WellFormedAs (fuel + 1) N :=
  ⟨unfold_mono t _ _ _ h.unfold, h.pagesOk, h.chain, h.nodup, h.ids⟩

omit [Inhabited V] in
theorem WellFormedAs.isEmpty_eq_false {fuel : Nat} {N : Node V} (h : t.WellFormedAs fuel N) :
    t.isEmpty = false := by
  simpa [isEmpty] using (h.ids _ ((reaches_iff_mem_pageIds h.unfold _).mp (.refl _))).1

/-- The tree holds the map `pairs`: it is empty and so is the map, or it is well formed within
`fuel` levels and its leaves hold the pairs, left to right. -/
def Holds (t : BPlusTree V) (fuel : Nat) (pairs : List (Int × V)) : Prop :=
  t.isEmpty = true ∧ pairs = [] ∨ ∃ N, t.WellFormedAs fuel N ∧ N.entries = pairs

omit [Inhabited V] in
theorem Holds.mono {fuel : Nat} {pairs : List (Int × V)} (h : t.Holds fuel pairs) :
    ∀ k, t.Holds (fuel + k) pairs
  | 0 => h
  | k + 1 => (Holds.mono h k).imp id fun ⟨N, hN, hpairs⟩ => ⟨N, hN.succ, hpairs⟩

omit [Inhabited V] in
theorem getLeafPageFrom_succ {key : Int} :
    ∀ {fuel : Nat} {p leafId : Int}, t.getLeafPageFrom key fuel p = some leafId →
      t.getLeafPageFrom key (fuel + 1) p = some leafId
  | 0, _, _, h => by simp [getLeafPageFrom] at h
  | fuel + 1, p, leafId, h => by
    rw [getLeafPageFrom] at h ⊢
    cases hp : t.pageAt p with
    | none => simp [hp] at h
    | some page =>
      cases page with
      | leaf => simpa [hp] using h
      | internal page =>
        simp only [hp] at h ⊢
        exact getLeafPageFrom_succ h

omit [Inhabited V] in
/-- A descent that reaches a leaf reaches the same leaf with more fuel. -/
theorem getLeafPageFrom_add {key : Int} {fuel : Nat} {p leafId : Int}
    (h : t.getLeafPageFrom key fuel p = some leafId) :
    ∀ k, t.getLeafPageFrom key (fuel + k) p = some leafId
  | 0 => h
  | k + 1 => getLeafPageFrom_succ (getLeafPageFrom_add h k)

section WellFormed

variable {fuel : Nat} {N : Node V} (hN : t.unfold fuel t.rootPageId = some N)
  (hok : N.pagesOk t.leafMaxSize t.internalMaxSize none none invalidPageId true = true)
include hN hok

/-- On a well-formed tree, `GetValue(key)` gives the value the leaves pair with `key`. -/
theorem getValue_of_unfold (hlm : 2 ≤ t.leafMaxSize) (him : 1 ≤ t.internalMaxSize)
    (hne : t.isEmpty = false) (key : Int) : t.getValue key fuel = some (N.entries.lookup key) := by
  obtain ⟨leafId, lo, hi, _, _, d, page, hleafId, hplaced, hleaf, hkey⟩ :=
    Placed.descend hN hok him Placed.root (Nat.sub_zero fuel)
      (show Node.inBounds none none key from rfl)
  obtain ⟨hd, Q, hQ, hQok, -⟩ := hplaced.unfold hN hok
  obtain ⟨EA, EB, hE, hEA, hEB⟩ := hplaced.context hN hok hlm him hQ
  obtain ⟨k, hk⟩ : ∃ k, fuel - d = k + 1 := ⟨fuel - d - 1, by omega⟩
  rw [hk] at hQ
  cases unfold_succ_leaf hQ hleaf
  obtain ⟨-, -, -, hlen, hsort, -⟩ := Node.pagesOk_leaf_iff.mp hQok
  simp only [getValue, hne, getLeafPage, hleafId, hleaf, Bool.false_eq_true, if_false,
    Option.bind_eq_bind, Option.some_bind, Option.pure_def]
  rw [page.lookUp_eq_lookup key hlen hsort, hE, lookup_between hEA hEB hkey]
  rfl

end WellFormed

/-- `GetValue(key)` on a tree that holds a map gives the value the map pairs with `key`, and
nothing for a key the map lacks. -/
theorem getValue_eq_lookup (hlm : 2 ≤ t.leafMaxSize) (him : 1 ≤ t.internalMaxSize) {fuel : Nat}
    {pairs : List (Int × V)} (h : t.Holds fuel pairs) (key : Int) :
    t.getValue key fuel = some (pairs.lookup key) := by
  rcases h with ⟨hempty, rfl⟩ | ⟨N, hN, rfl⟩
  · simp [getValue, hempty]
  · exact getValue_of_unfold hN.unfold hN.pagesOk hlm him hN.isEmpty_eq_false key

/-- A root leaf that holds the keys 1 and 2 answers `GetValue(2)` with the value paired with 2. -/
theorem getValue_eq_lookup_rootLeaf :
    (⟨PageStore.ofPages [(0, .leaf ⟨⟨2, 3, -1, 0⟩, -1, [(1, 10), (2, 20)]⟩)] 1, 0, 3, 3, []⟩ :
      BPlusTree Nat).getValue 2 1 = some (([(1, 10), (2, 20)] : List (Int × Nat)).lookup 2) := by
  apply getValue_eq_lookup
  · decide
  · decide
  · exact .inr ⟨_, ⟨rfl, by decide, by decide, by decide, by decide⟩, rfl⟩

end BPlusTree

end Bustub
