import Mathlib.Data.List.Basic
import Bustub.Basic

/-!
# The trie of the primer

`Trie` (`include/primer/p0_trie.h`) maps non-empty strings to values.  A `TrieNode` keeps its
children in an `unordered_map` from characters to owned nodes, and the node that ends a key is a
`TrieNodeWithValue<T>`, which `IsEndNode()` tells apart.  The model keeps, of a node, its value
(the node is a `TrieNodeWithValue` iff it has one) and its children as a list of pairs, to which
`InsertChildNode` appends.  The key character a node stores is the one its parent maps it under,
so it is left out.  Strings are lists of characters.  The latch of the trie is left out: the calls
run one after another.

`Insert` walks down the key from the root, creating a node for each missing character but the
last, and turns the node of the last character into a `TrieNodeWithValue` unless it is one;
`insertAt` is that walk.  `Remove` walks down the key pushing each parent on a stack, then pops
the stack: at the parent of depth `i` it reads the child named by `key[i]` and, unless that child
has children, removes the child named by `key[i - 1]`, because the loop decrements `key_char` in
between.  At depth 0 that reads the character before the string, which is undefined behaviour:
`removeLoop` returns `none` there.  `GetValue` returns the value and the flag it writes to
`*success`.

`Trie.insert_lookup` says that `Insert` updates the finite map `Trie.lookup` as a map insertion
does, and `Trie.insert_pruned` that it leaves no dead branch; `GetValue` reads the map
(`Trie.getValue_eq`).  `Remove` is neither a map removal nor pruning, as the two theorems at the
end show.
-/

namespace Bustub

/-- A `TrieNode`, with the value of a `TrieNodeWithValue<T>`. -/
inductive TrieNode (T : Type) where
  | node (value : Option T) (children : List (Char × TrieNode T))

namespace TrieNode

variable {T : Type}

/-- The value of a `TrieNodeWithValue`. -/
def value : TrieNode T → Option T
  | node value _ => value

/-- `children_`. -/
def children : TrieNode T → List (Char × TrieNode T)
  | node _ children => children

/-- `IsEndNode()`. -/
def isEndNode (n : TrieNode T) : Bool := n.value.isSome

/-- `HasChildren()`. -/
def hasChildren (n : TrieNode T) : Bool := !n.children.isEmpty

/-- `GetChildNode(key_char)`. -/
def getChildNode (n : TrieNode T) (keyChar : Char) : Option (TrieNode T) :=
  n.children.lookup keyChar

/-- `InsertChildNode(key_char, child)`; it refuses, changing nothing, when the child exists. -/
def insertChildNode (n : TrieNode T) (keyChar : Char) (child : TrieNode T) : TrieNode T :=
  if (n.getChildNode keyChar).isSome then n else node n.value (n.children ++ [(keyChar, child)])

/-- `RemoveChildNode(key_char)`. -/
def removeChildNode (n : TrieNode T) (keyChar : Char) : TrieNode T :=
  node n.value (n.children.filter (·.1 != keyChar))

/-- A write through the pointer `GetChildNode(key_char)` returns. -/
def setChild (n : TrieNode T) (keyChar : Char) (child : TrieNode T) : TrieNode T :=
  node n.value (n.children.map fun pair => if pair.1 = keyChar then (keyChar, child) else pair)

/-- The node a walk down `key` reaches. -/
def getAt : TrieNode T → List Char → Option (TrieNode T)
  | n, [] => some n
  | n, c :: key => (n.getChildNode c).bind (getAt · key)

/-- A change of the node a walk down `key` reaches. -/
def modifyAt (f : TrieNode T → TrieNode T) : List Char → TrieNode T → TrieNode T
  | [], n => f n
  | c :: key, n =>
    match n.getChildNode c with
    | some child => n.setChild c (modifyAt f key child)
    | none => n

/-- The value bound to `key` below `n`. -/
def lookupAt (n : TrieNode T) (key : List Char) : Option T := (n.getAt key).bind value

/-- The walk of `Insert(key, value)` below `n`, and whether the call returns true.  An empty key
is refused. -/
def insertAt (value : T) : List Char → TrieNode T → Bool × TrieNode T
  | [], n => (false, n)
  | [c], n =>
    match n.getChildNode c with
    | some child =>
      if child.isEndNode then (false, n)
      else (true, n.setChild c (node (some value) child.children))
    | none => (true, n.insertChildNode c (node (some value) []))
  | c :: d :: key, n =>
    let n := n.insertChildNode c (node none [])
    let r := insertAt value (d :: key) ((n.getChildNode c).getD (node none []))
    (r.1, n.setChild c r.2)

/-- The pops of `Remove(key)`'s stack, with `i` parents left on it, the top one at depth
`i - 1`; `none` where the loop reads before the string. -/
def removeLoop (key : List Char) : Nat → TrieNode T → Option (TrieNode T)
  | 0, root => some root
  | i + 1, root =>
    let child := (root.getAt (key.take i)).bind (·.getChildNode (key.getD i default))
    if child.any (·.hasChildren) then removeLoop key i root
    else match i with
      | 0 => none
      | j + 1 =>
        removeLoop key i (root.modifyAt (·.removeChildNode (key.getD j default)) (key.take i))

mutual

/-- No node below `n` is a dead branch: each has children or ends a key. -/
def prunedBelow : TrieNode T → Bool
  | node _ children => prunedFrom children

/-- `prunedBelow` of the nodes `children` and of the nodes below them. -/
def prunedFrom : List (Char × TrieNode T) → Bool
  | [] => true
  | (_, child) :: children =>
    (child.hasChildren || child.isEndNode) && child.prunedBelow && prunedFrom children

end

/-! ## Reading a node after a change -/

@[simp] theorem value_node (value : Option T) (children : List (Char × TrieNode T)) :
    (node value children).value = value := rfl

@[simp] theorem children_node (value : Option T) (children : List (Char × TrieNode T)) :
    (node value children).children = children := rfl

@[simp] theorem value_setChild (n : TrieNode T) (c : Char) (child : TrieNode T) :
    (n.setChild c child).value = n.value := rfl

@[simp] theorem value_insertChildNode (n : TrieNode T) (c : Char) (child : TrieNode T) :
    (n.insertChildNode c child).value = n.value := by
  unfold insertChildNode; split <;> rfl

theorem lookup_map_set {l : List (Char × TrieNode T)} {c d : Char} {x : TrieNode T} :
    (l.map fun pair => if pair.1 = c then (c, x) else pair).lookup d =
      if d = c then (l.lookup c).map fun _ => x else l.lookup d := by
  induction l with
  | nil => split <;> rfl
  | cons pair l ih =>
    obtain ⟨e, y⟩ := pair
    by_cases he : e = c
    · subst he
      rw [List.map_cons, if_pos rfl]
      by_cases hd : d = e
      · subst hd; simp [List.lookup_cons, List.lookup_nil]
      · simp [List.lookup_cons, List.lookup_nil, hd, ih, beq_eq_false_iff_ne.mpr hd]
    · rw [List.map_cons, if_neg he]
      by_cases hd : d = e
      · subst hd; simp [List.lookup_cons, List.lookup_nil, he]
      · by_cases hdc : d = c
        · subst hdc; simp [List.lookup_cons, List.lookup_nil, hd, ih, beq_eq_false_iff_ne.mpr hd]
        · simp [List.lookup_cons, List.lookup_nil, hd, hdc, ih, beq_eq_false_iff_ne.mpr hd]

@[simp] theorem getChildNode_setChild (n : TrieNode T) (c d : Char) (x : TrieNode T) :
    (n.setChild c x).getChildNode d =
      if d = c then (n.getChildNode c).map fun _ => x else n.getChildNode d :=
  lookup_map_set

@[simp] theorem getChildNode_insertChildNode (n : TrieNode T) (c d : Char) (x : TrieNode T) :
    (n.insertChildNode c x).getChildNode d =
      if d = c then some ((n.getChildNode c).getD x) else n.getChildNode d := by
  unfold insertChildNode getChildNode
  cases h : n.children.lookup c with
  | some y => by_cases hd : d = c <;> simp [hd, h]
  | none =>
    by_cases hd : d = c
    · subst hd; simp [List.lookup_append, h, List.lookup_cons, List.lookup_nil]
    · simp [List.lookup_append, hd, List.lookup_cons, List.lookup_nil]
      cases n.children.lookup d <;> simp [beq_eq_false_iff_ne.mpr hd]

@[simp] theorem lookupAt_nil (n : TrieNode T) : n.lookupAt [] = n.value := rfl

theorem lookupAt_cons (n : TrieNode T) (c : Char) (key : List Char) :
    n.lookupAt (c :: key) = (n.getChildNode c).bind (·.lookupAt key) := by
  simp only [lookupAt, getAt, Option.bind_assoc]

@[simp] theorem getChildNode_node_children (value : Option T) (n : TrieNode T) (c : Char) :
    (node value n.children).getChildNode c = n.getChildNode c := rfl

@[simp] theorem getChildNode_node_nil (value : Option T) (c : Char) :
    (node value ([] : List (Char × TrieNode T))).getChildNode c = none := rfl

/-- A missing child reads as an empty node. -/
theorem lookupAt_getChildNode_getD (n : TrieNode T) (c : Char) (k : List Char) :
    ((n.getChildNode c).getD (node none [])).lookupAt k = n.lookupAt (c :: k) := by
  rw [lookupAt_cons]
  cases n.getChildNode c with
  | some child => rfl
  | none => cases k <;> rfl

/-! ## `Insert` is a map insertion -/

/-- What `Insert` binds: `key` to `value` if it was unbound, and nothing else. -/
theorem insertAt_lookupAt (value : T) :
    ∀ (key : List Char) (n : TrieNode T) (k : List Char), key ≠ [] →
      (insertAt value key n).2.lookupAt k =
        if k = key ∧ (n.lookupAt key).isNone then some value else n.lookupAt k
  | [], _, _, hk => absurd rfl hk
  | [c], n, [], _ => by
    unfold insertAt
    split
    · split <;> simp
    · simp
  | [c], n, d :: k, _ => by
    by_cases hd : d = c
    · subst hd
      unfold insertAt
      cases hc : n.getChildNode d with
      | none => cases k <;> simp [lookupAt_cons, hc]
      | some child =>
        by_cases hend : child.isEndNode = true
        · have hbound : (n.lookupAt [d]).isNone = false := by
            simpa [lookupAt_cons, hc, isEndNode] using hend
          rw [if_neg (by simp [hbound])]
          simp [hend, lookupAt_cons, hc]
        · have hval : child.value = none := by simpa [isEndNode] using hend
          cases k with
          | nil => simp [hend, lookupAt_cons, hc, hval]
          | cons e k => simp [hend, lookupAt_cons, hc, lookupAt_cons child]
    · unfold insertAt
      split
      · split <;> simp [lookupAt_cons, hd]
      · simp [lookupAt_cons, hd]
  | c :: d :: key, n, [], _ => by simp [insertAt]
  | c :: d :: key, n, e :: k, _ => by
    by_cases he : e = c
    · subst he
      simp only [insertAt]
      rw [lookupAt_cons]
      simp only [getChildNode_setChild, if_true, getChildNode_insertChildNode, Option.map_some',
        Option.some_bind, Option.getD_some,
        insertAt_lookupAt value (d :: key) _ k (List.cons_ne_nil _ _), lookupAt_getChildNode_getD,
        List.cons.injEq, true_and]
    · simp [insertAt, lookupAt_cons, he]

/-- `Insert` returns true iff the key is not empty and was unbound. -/
theorem insertAt_fst (value : T) :
    ∀ (key : List Char) (n : TrieNode T),
      (insertAt value key n).1 = (!key.isEmpty && (n.lookupAt key).isNone)
  | [], _ => by simp [insertAt]
  | [c], n => by
    unfold insertAt
    cases hc : n.getChildNode c with
    | none => simp [lookupAt_cons, hc]
    | some child => by_cases hend : child.isEndNode = true <;> simp_all [lookupAt_cons, isEndNode]
  | c :: d :: key, n => by
    simp only [insertAt, getChildNode_insertChildNode, if_true, Option.getD_some,
      insertAt_fst value (d :: key), lookupAt_getChildNode_getD]
    rfl

/-! ## `Insert` keeps the trie pruned -/

/-- A child is kept by the pruning invariant when it has children or ends a key. -/
def Live (child : TrieNode T) : Prop := (child.hasChildren || child.isEndNode) && child.prunedBelow

theorem prunedFrom_iff :
    ∀ children : List (Char × TrieNode T), prunedFrom children = true ↔ ∀ p ∈ children, Live p.2
  | [] => by simp [prunedFrom]
  | (c, child) :: children => by
    simp [prunedFrom, prunedFrom_iff children, Live, and_assoc]

theorem mem_of_lookup_eq_some {c : Char} {x : TrieNode T} :
    ∀ {l : List (Char × TrieNode T)}, l.lookup c = some x → (c, x) ∈ l
  | [], h => by simp [List.lookup_cons, List.lookup_nil] at h
  | (d, y) :: l, h => by
    by_cases hd : c = d
    · subst hd; simp [List.lookup_cons, List.lookup_nil] at h; simp [h]
    · simp [List.lookup_cons, List.lookup_nil, beq_eq_false_iff_ne.mpr hd] at h
      exact List.mem_cons_of_mem _ (mem_of_lookup_eq_some h)

theorem prunedBelow_iff (n : TrieNode T) :
    n.prunedBelow = true ↔ ∀ p ∈ n.children, Live p.2 := by
  cases n; exact prunedFrom_iff _

theorem prunedBelow_setChild {n x : TrieNode T} (c : Char) (hn : n.prunedBelow = true)
    (hx : Live x) : (n.setChild c x).prunedBelow = true := by
  rw [prunedBelow_iff] at hn ⊢
  simp only [setChild, children_node, List.mem_map]
  rintro _ ⟨p, hp, rfl⟩
  split
  · exact hx
  · exact hn p hp

theorem prunedBelow_insertChildNode {n x : TrieNode T} (c : Char) (hn : n.prunedBelow = true)
    (hx : Live x) : (n.insertChildNode c x).prunedBelow = true := by
  unfold insertChildNode
  split
  · exact hn
  · rw [prunedBelow_iff] at hn ⊢
    simp only [children_node, List.mem_append, List.mem_singleton]
    rintro p (hp | rfl)
    · exact hn p hp
    · exact hx

/-- The child `Insert` creates on its way is replaced before the call ends. -/
theorem prunedBelow_insertChildNode_setChild {n x : TrieNode T} (c : Char) (y : TrieNode T)
    (hn : n.prunedBelow = true) (hx : Live x) :
    ((n.insertChildNode c y).setChild c x).prunedBelow = true := by
  rw [prunedBelow_iff] at hn ⊢
  simp only [setChild, children_node, List.mem_map]
  rintro _ ⟨p, hp, rfl⟩
  split
  · exact hx
  · rename_i hpc
    unfold insertChildNode at hp
    split at hp
    · exact hn p hp
    · rcases List.mem_append.mp hp with hp | hp
      · exact hn p hp
      · simp only [List.mem_singleton] at hp
        subst hp
        exact absurd rfl hpc

theorem hasChildren_insertChildNode (n x : TrieNode T) (c : Char) :
    (n.insertChildNode c x).hasChildren = true := by
  have h := getChildNode_insertChildNode n c c x
  rw [if_pos rfl] at h
  cases hl : (n.insertChildNode c x).children with
  | nil => simp [getChildNode, hl] at h
  | cons _ _ => simp [hasChildren, hl]

@[simp] theorem hasChildren_setChild (n : TrieNode T) (c : Char) (x : TrieNode T) :
    (n.setChild c x).hasChildren = n.hasChildren := by
  simp only [setChild, hasChildren, children_node]
  cases n.children <;> rfl

theorem hasChildren_of_getChildNode {n child : TrieNode T} {c : Char}
    (h : n.getChildNode c = some child) : n.hasChildren = true := by
  cases hl : n.children with
  | nil => simp [getChildNode, hl] at h
  | cons _ _ => simp [hasChildren, hl]

theorem prunedBelow_eq (n : TrieNode T) : n.prunedBelow = prunedFrom n.children := by
  cases n; rfl

/-- `Insert` below a pruned node leaves it pruned, with a child. -/
theorem insertAt_pruned (value : T) :
    ∀ (key : List Char) (n : TrieNode T), n.prunedBelow = true → key ≠ [] →
      (insertAt value key n).2.prunedBelow = true ∧ (insertAt value key n).2.hasChildren = true
  | [], _, _, hk => absurd rfl hk
  | [c], n, hn, _ => by
    have hnew : ∀ children, (node (some value) children).prunedBelow = prunedFrom children :=
      fun _ => rfl
    cases hc : n.getChildNode c with
    | none =>
      simp only [insertAt, hc]
      exact ⟨prunedBelow_insertChildNode c hn (by simp [Live, isEndNode, hnew, prunedFrom]),
        hasChildren_insertChildNode _ _ _⟩
    | some child =>
      have hchild : Live child := (prunedBelow_iff n).mp hn (c, child) (mem_of_lookup_eq_some hc)
      simp only [Live, Bool.and_eq_true] at hchild
      by_cases hend : child.isEndNode = true
      · simp only [insertAt, hc, hend, if_true]
        exact ⟨hn, hasChildren_of_getChildNode hc⟩
      · simp only [insertAt, hc, hend, Bool.false_eq_true, if_false]
        refine ⟨prunedBelow_setChild c hn ?_, by simp [hasChildren_of_getChildNode hc]⟩
        simp [Live, isEndNode, hnew, ← prunedBelow_eq, hchild.2]
  | c :: d :: key, n, hn, _ => by
    have hchild : ((n.getChildNode c).getD (node none [])).prunedBelow = true := by
      cases hc : n.getChildNode c with
      | none => rfl
      | some child =>
        have := (prunedBelow_iff n).mp hn (c, child) (mem_of_lookup_eq_some hc)
        simp only [Live, Bool.and_eq_true] at this
        exact this.2
    have ih := insertAt_pruned value (d :: key) _ hchild (List.cons_ne_nil _ _)
    simp only [insertAt, getChildNode_insertChildNode, if_true, Option.getD_some]
    refine ⟨prunedBelow_insertChildNode_setChild c _ hn ?_, by simp [hasChildren_insertChildNode]⟩
    simp [Live, ih.1, ih.2]

end TrieNode

/-- A `Trie`: its `root_`, a node with no value. -/
structure Trie (T : Type) where
  root : TrieNode T

namespace Trie

variable {T : Type}

/-- `Trie()`. -/
def new : Trie T := ⟨.node none []⟩

/-- `Insert(key, value)`: whether it returns true, and the trie after it. -/
def insert (trie : Trie T) (key : List Char) (value : T) : Bool × Trie T :=
  let r := trie.root.insertAt value key
  (r.1, ⟨r.2⟩)

/-- `Remove(key)`: whether it returns true, and the trie after it; `none` where the call reads
before the string. -/
def remove (trie : Trie T) (key : List Char) : Option (Bool × Trie T) :=
  if key.isEmpty || (trie.root.getAt key).isNone then some (false, trie)
  else (trie.root.removeLoop key key.length).map fun root => (true, ⟨root⟩)

/-- `GetValue<T>(key, success)`: the value returned, `T{}` when there is none, and what the call
writes to `*success`.  The walk down the key is `getAt`; the `dynamic_cast` to
`TrieNodeWithValue<T>` succeeds on a node with a value. -/
def getValue [Inhabited T] (trie : Trie T) (key : List Char) : T × Bool :=
  if key.isEmpty then (default, false)
  else
    match trie.root.getAt key with
    | none => (default, false)
    | some node =>
      match node.value with
      | some v => (v, true)
      | none => (default, false)

/-- The finite map from non-empty strings the trie stands for. -/
def lookup (trie : Trie T) (key : List Char) : Option T :=
  if key.isEmpty then none else trie.root.lookupAt key

/-- The trie keeps no dead branch: every node but the root that has no children ends a key. -/
def Pruned (trie : Trie T) : Prop := trie.root.prunedBelow = true

instance (trie : Trie T) : Decidable trie.Pruned := inferInstanceAs (Decidable (_ = true))

/-- `Insert` binds an unbound non-empty key and changes no other binding; it returns whether it
bound the key. -/
theorem insert_lookup (trie : Trie T) (key : List Char) (value : T) (k : List Char) :
    (trie.insert key value).1 = (!key.isEmpty && (trie.lookup key).isNone) ∧
    (trie.insert key value).2.lookup k =
      if k = key ∧ key ≠ [] ∧ (trie.lookup key).isNone then some value else trie.lookup k := by
  refine ⟨by cases key <;> simp [insert, lookup, TrieNode.insertAt_fst], ?_⟩
  rcases key with _ | ⟨c, key⟩
  · simp [insert, TrieNode.insertAt]
  · rcases k with _ | ⟨d, k⟩
    · simp [insert, lookup]
    · simp only [insert, lookup, List.isEmpty_cons, Bool.false_eq_true, if_false,
        TrieNode.insertAt_lookupAt value (c :: key) _ _ (List.cons_ne_nil _ _), ne_eq,
        reduceCtorEq, not_false_eq_true, true_and]

/-- `Insert` leaves no dead branch. -/
theorem insert_pruned (trie : Trie T) (key : List Char) (value : T) (h : trie.Pruned) :
    (trie.insert key value).2.Pruned := by
  cases key with
  | nil => exact h
  | cons c key => exact (TrieNode.insertAt_pruned value _ _ h (List.cons_ne_nil _ _)).1

/-- `GetValue` reads the map, and sets `*success` to whether the key is bound. -/
theorem getValue_eq [Inhabited T] (trie : Trie T) (key : List Char) :
    trie.getValue key = ((trie.lookup key).getD default, (trie.lookup key).isSome) := by
  unfold getValue lookup TrieNode.lookupAt
  split
  · rfl
  · cases trie.root.getAt key with
    | none => rfl
    | some node =>
      obtain ⟨value, children⟩ := node
      cases value <;> rfl

/-- After `Insert("ab", 1)`, `Remove("ab")` returns true and leaves "ab" bound, and `Remove("a")`
returns true though "a" is unbound: the loop removes the child named by the character before the
one it reads, which here is no child. -/
theorem remove_keeps_binding :
    ∃ trie : Trie Nat, (Trie.new.insert ['a', 'b'] 1).2 = trie ∧
      trie.lookup ['a', 'b'] = some 1 ∧
      (trie.remove ['a', 'b']).map (·.1) = some true ∧
      (trie.remove ['a', 'b']).map (·.2.lookup ['a', 'b']) = some (some 1) ∧
      trie.lookup ['a'] = none ∧ (trie.remove ['a']).map (·.1) = some true :=
  ⟨_, rfl, by decide⟩

/-- After `Insert("baa", 1)`, `Remove("baa")` removes the node of "baa" but leaves the node of "ba",
which has no children and ends no key. -/
theorem remove_leaves_dead_branch :
    ∃ trie trie' : Trie Nat, (Trie.new.insert ['b', 'a', 'a'] 1).2 = trie ∧ trie.Pruned ∧
      trie.remove ['b', 'a', 'a'] = some (true, trie') ∧
      trie'.lookup ['b', 'a', 'a'] = none ∧ ¬ trie'.Pruned :=
  ⟨_, _, rfl, by decide, rfl, by decide, by decide⟩

end Trie

end Bustub
