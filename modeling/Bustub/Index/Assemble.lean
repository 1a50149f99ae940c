import Bustub.Index.PageInsert
import Bustub.Index.Frame

/-!
# The tree a store holds, page by page

`Insert` changes a few pages of the store.  To say what tree the store holds afterwards, this
module reads `unfold` the other way round: a page unfolds to an internal node once its children
unfold (`unfold_succ_of_children`), and a subtree unfolds the same in any store that agrees on its
pages (`unfold_congr`), or with its top page's parent set (`unfold_withParent`).  `Unfolds t p
node` hides the fuel.

*Children.*  `ChildrenBounded` is taken apart and put back together along `cons` and `++`
(`childrenBounded_cons`, `childrenBounded_append`), each child's upper bound being the lower
bound of what follows it (`nextBound`).
-/

namespace Bustub

namespace Node

variable {V : Type} {lm im : Nat} {parentId : Int}

/-- The upper bound of a child followed by `rest`: the lower bound of the next child, or `hi`. -/
def nextBound (hi : Option Int) (rest : List (Option Int × Node V)) : Option Int :=
  ((rest.head?).map (·.1)).getD hi

@[simp] theorem nextBound_nil (hi : Option Int) : nextBound hi ([] : List (Option Int × Node V)) = hi :=
  rfl

@[simp] theorem nextBound_cons (hi : Option Int) (x : Option Int × Node V) (rest) :
    nextBound hi (x :: rest) = x.1 :=
  rfl

theorem childrenBounded_cons {hi lo : Option Int} {c : Node V}
    {rest : List (Option Int × Node V)} :
    ChildrenBounded lm im parentId hi ((lo, c) :: rest) ↔
      c.pagesOk lm im lo (nextBound hi rest) parentId false = true ∧
        ChildrenBounded lm im parentId hi rest := by
  cases rest with
  | nil => simp [ChildrenBounded]
  | cons x rest => obtain ⟨lo', c'⟩ := x; rfl

theorem childrenBounded_append {hi : Option Int} {B : List (Option Int × Node V)} :
    ∀ {A : List (Option Int × Node V)}, ChildrenBounded lm im parentId hi (A ++ B) ↔
      ChildrenBounded lm im parentId (nextBound hi B) A ∧ ChildrenBounded lm im parentId hi B
  | [] => by simp [ChildrenBounded]
  | (lo, c) :: A => by
    have hnext : nextBound hi (A ++ B) = nextBound (nextBound hi B) A := by cases A <;> rfl
    rw [List.cons_append, childrenBounded_cons, childrenBounded_cons, childrenBounded_append,
      hnext, and_assoc]

/-- Children moved under another page keep passing `pagesOk` there. -/
theorem childrenBounded_withParent {hi : Option Int} {parentId' : Int} :
    ∀ {L : List (Option Int × Node V)}, ChildrenBounded lm im parentId hi L →
      ChildrenBounded lm im parentId' hi (L.map fun x => (x.1, x.2.withParent parentId'))
  | [], _ => trivial
  | (lo, c) :: rest, h => by
    rw [childrenBounded_cons] at h
    rw [List.map_cons, childrenBounded_cons]
    have hnext : nextBound hi (rest.map fun x => (x.1, x.2.withParent parentId')) =
        nextBound hi rest := by cases rest <;> rfl
    exact ⟨hnext ▸ pagesOk_withParent h.1, childrenBounded_withParent h.2⟩

end Node

namespace BPlusTree

variable {V : Type} {t : BPlusTree V}

/-- The store holds the tree `node` under the page `p`, given fuel enough. -/
def Unfolds (t : BPlusTree V) (p : Int) (node : Node V) : Prop :=
  ∃ fuel, t.unfold fuel p = some node

theorem unfold_add {fuel : Nat} {p : Int} {node : Node V} (h : t.unfold fuel p = some node) :
    ∀ k, t.unfold (fuel + k) p = some node
  | 0 => h
  | k + 1 => unfold_mono t _ _ _ (unfold_add h k)

theorem Unfolds.unique {p : Int} {node node' : Node V} (h : t.Unfolds p node)
    (h' : t.Unfolds p node') : node = node' :=
  unfold_unique t h.choose_spec h'.choose_spec

theorem Unfolds.leaf {p : Int} {page : LeafPage V} (h : t.pageAt p = some (.leaf page)) :
    t.Unfolds p (.leaf p page) :=
  ⟨1, by simp [unfold, h]⟩

theorem mapM_eq_some_of_map {α β : Type} {f : α → Option β} :
    ∀ {l : List α} {bs : List β}, l.map f = bs.map some → l.mapM f = some bs
  | [], [], _ => rfl
  | [], _ :: _, h => nomatch h
  | _ :: _, [], h => nomatch h
  | a :: l, b :: bs, h => by
    simp only [List.map_cons, List.cons.injEq] at h
    rw [List.mapM_cons, h.1, mapM_eq_some_of_map h.2]
    rfl

/-- An internal page unfolds once its children do. -/
theorem unfold_succ_of_children {fuel : Nat} {p : Int} {page : InternalPage}
    {children : List (Node V)} (hp : t.pageAt p = some (.internal page))
    (hlen : children.length = page.header.size)
    (hchildren : ∀ i (hi : i < children.length), t.unfold fuel (page.valueAt i) = some children[i]) :
    t.unfold (fuel + 1) p = some (.internal p page children) := by
  have hmap : (List.range page.header.size).map (fun i => t.unfold fuel (page.valueAt i)) =
      children.map some := by
    apply List.ext_getElem (by simp [hlen])
    intro i h₁ h₂
    simp only [List.getElem_map, List.getElem_range]
    exact hchildren i (by simpa using h₂)
  simp only [unfold, hp, Option.bind_eq_bind, mapM_eq_some_of_map hmap]
  rfl

/-- A family of facts that survive more fuel holds at one fuel for all its members. -/
theorem exists_common_fuel {P : Nat → Nat → Prop} (hmono : ∀ i f, P i f → ∀ k, P i (f + k)) :
    ∀ n, (∀ i < n, ∃ f, P i f) → ∃ F, ∀ i < n, P i F
  | 0, _ => ⟨0, fun _ h => absurd h (Nat.not_lt_zero _)⟩
  | n + 1, h => by
    obtain ⟨F, hF⟩ := exists_common_fuel hmono n fun i hi => h i (by omega)
    obtain ⟨f, hf⟩ := h n (by omega)
    refine ⟨F + f, fun i hi => ?_⟩
    rcases Nat.lt_succ_iff_lt_or_eq.mp hi with hi | rfl
    · exact hmono i F (hF i hi) f
    · rw [Nat.add_comm]
      exact hmono i f hf F

theorem Unfolds.internal {p : Int} {page : InternalPage} {children : List (Node V)}
    (hp : t.pageAt p = some (.internal page)) (hlen : children.length = page.header.size)
    (hchildren : ∀ i (hi : i < children.length), t.Unfolds (page.valueAt i) children[i]) :
    t.Unfolds p (.internal p page children) := by
  obtain ⟨F, hF⟩ := exists_common_fuel
    (P := fun i f => ∀ hi : i < children.length, t.unfold f (page.valueAt i) = some children[i])
    (fun i f h k hi => unfold_add (h hi) k) children.length
    (fun i hi => (hchildren i hi).imp fun f hf _ => hf)
  exact ⟨F + 1, unfold_succ_of_children hp hlen fun i hi => hF i hi hi⟩

/-- What a page with fuel to spare unfolds to: a leaf, or an internal node over its children. -/
theorem unfold_succ_cases {fuel : Nat} {p : Int} {node : Node V}
    (h : t.unfold (fuel + 1) p = some node) :
    (∃ page, t.pageAt p = some (.leaf page) ∧ node = .leaf p page) ∨
      ∃ page children, t.pageAt p = some (.internal page) ∧ node = .internal p page children ∧
        children.length = page.header.size ∧
        ∀ i (hi : i < children.length), t.unfold fuel (page.valueAt i) = some children[i] := by
  obtain ⟨page, hpage⟩ := pageAt_of_unfold h
  cases page with
  | leaf page =>
    exact .inl ⟨page, hpage, unfold_succ_leaf h (show t.leafAt p = some page by simp [leafAt, hpage])⟩
  | internal page =>
    obtain ⟨children, hnode, hrest⟩ :=
      unfold_succ_internal h (show t.internalAt p = some page by simp [internalAt, hpage])
    exact .inr ⟨page, children, hpage, hnode, hrest⟩

theorem mem_pageIds_internal {p : Int} {page : InternalPage} {children : List (Node V)} {i : Nat}
    (hi : i < children.length) {q : Int} (hq : q ∈ children[i].pageIds) :
    q ∈ (Node.internal p page children).pageIds := by
  simp only [Node.pageIds, List.mem_cons, Node.pageIdsList_eq_flatMap, List.mem_flatMap]
  exact .inr ⟨_, List.getElem_mem hi, hq⟩

/-- A subtree unfolds the same in a store that agrees on its pages. -/
theorem unfold_congr {t' : BPlusTree V} :
    ∀ {fuel : Nat} {p : Int} {node : Node V}, t.unfold fuel p = some node →
      (∀ q ∈ node.pageIds, t'.pageAt q = t.pageAt q) → t'.unfold fuel p = some node
  | 0, _, _, h, _ => by simp [unfold] at h
  | fuel + 1, p, node, h, hsame => by
    have hp : t'.pageAt p = t.pageAt p := hsame p (by
      rcases unfold_succ_cases h with ⟨_, _, rfl⟩ | ⟨_, _, _, rfl, _⟩ <;> simp [Node.pageIds])
    rcases unfold_succ_cases h with ⟨page, hpage, rfl⟩ | ⟨page, children, hpage, rfl, hlen, hchild⟩
    · simp [unfold, hp, hpage]
    · exact unfold_succ_of_children (hp.trans hpage) hlen fun i hi =>
        unfold_congr (hchild i hi) fun q hq => hsame q (mem_pageIds_internal hi hq)

theorem Unfolds.congr {t' : BPlusTree V} {p : Int} {node : Node V} (h : t.Unfolds p node)
    (hsame : ∀ q ∈ node.pageIds, t'.pageAt q = t.pageAt q) : t'.Unfolds p node :=
  h.imp fun _ hf => unfold_congr hf hsame

/-- A subtree whose top page has its parent set, and no other page changed, unfolds to the
subtree with that parent. -/
theorem unfold_withParent {t' : BPlusTree V} {fuel : Nat} {p x : Int} {node : Node V}
    (h : t.unfold fuel p = some node) (hnodup : node.pageIds.Nodup)
    (hp : t'.pageAt p = (t.pageAt p).map (TreePage.setParentPageId x))
    (hrest : ∀ q ∈ node.pageIds, q ≠ p → t'.pageAt q = t.pageAt q) :
    t'.unfold fuel p = some (node.withParent x) := by
  cases fuel with
  | zero => simp [unfold] at h
  | succ fuel =>
    rcases unfold_succ_cases h with ⟨page, hpage, rfl⟩ | ⟨page, children, hpage, rfl, hlen, hchild⟩
    · simp [unfold, hp, hpage, TreePage.setParentPageId, Node.withParent]
    · rw [hpage] at hp
      simp only [Node.pageIds, List.nodup_cons, Node.pageIdsList_eq_flatMap, List.mem_flatMap,
        not_exists, not_and] at hnodup
      refine unfold_succ_of_children (by simpa [TreePage.setParentPageId] using hp) hlen
        fun i hi => unfold_congr (hchild i hi) fun q hq => hrest q (mem_pageIds_internal hi hq) ?_
      rintro rfl
      exact hnodup.1 _ (List.getElem_mem hi) hq

end BPlusTree

end Bustub
