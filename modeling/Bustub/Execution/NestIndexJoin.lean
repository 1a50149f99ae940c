import Bustub.Execution.JoinEquivalence
import Bustub.Index.Lookup

/-!
# The index nested-loop join is the nested-loop join

`NestIndexJoinExecutor` takes each left tuple of its child, evaluates the key predicate on it
through the inner table's schema (`KeyPredicate()->Evaluate(&left_tuple_, right_schema)`), asks
the inner table's index for the rids of that key (`ScanKey`), and joins the left tuple to the
inner tuple at the first rid found; on a left join it pads a left tuple for which the index finds
none, and on an inner join it goes on to the next left tuple.  Its index is a `BPlusTree` over
one integer column, whose `ScanKey` (`BPlusTreeIndex`, not under src/) is the tree's `GetValue`.

*The executor.*  Each round of the `while (true)` loop of `Next` takes one left tuple, so `Init`
and `Next` until false yield, for each left tuple in order, its join to the first rid `ScanKey`
finds, or its padding (`drain_eq_indexJoinOutput`).

*The index.*  Over a tree that holds the map `pairs`, `ScanKey` finds the rid the map pairs with
the key, and nothing for a key the map lacks (`BPlusTree.scanKey_eq`); the keys of the map are
distinct (`BPlusTree.Holds.keys_nodup`).

*The two joins.*  The nested-loop join evaluates the left key through the left schema.  When the
key predicate reads the same key from a left tuple through either schema, the index holds one
pair per inner tuple, its key and its rid, and `GetTuple` reads the inner tuple at its rid, the
index join yields the tuples the nested-loop join yields over the predicate "the left key equals
the inner tuple's key" (`nestIndexJoin_eq_nestedLoopJoin`).  An index of distinct keys has at most one inner tuple per
key, so the nested-loop join finds at most one match, where the index join takes the first rid.
-/

namespace Bustub

variable {Tuple : Type}

/-! ## `ScanKey` of a B+ tree index -/

namespace BPlusTree

variable {V : Type} [Inhabited V] {t : BPlusTree V}

/-- `ScanKey(key, &result)` of the B+ tree index: its tree's `GetValue(key, &result)`, which
appends the value it finds. -/
def scanKey (t : BPlusTree V) (fuel : Nat) (key : Int) : List V :=
  match t.getValue key fuel with
  | some (some value) => [value]
  | _ => []

/-- Over a tree that holds a map, `ScanKey` finds the value the map pairs with the key. -/
theorem scanKey_eq (hlm : 2 ≤ t.leafMaxSize) (him : 1 ≤ t.internalMaxSize) {fuel : Nat}
    {pairs : List (Int × V)} (h : t.Holds fuel pairs) (key : Int) :
    t.scanKey fuel key = (pairs.lookup key).toList := by
  rw [scanKey, getValue_eq_lookup hlm him h key]
  cases pairs.lookup key <;> rfl

omit [Inhabited V] in
/-- The map a tree holds has distinct keys. -/
theorem Holds.keys_nodup (hlm : 2 ≤ t.leafMaxSize) (him : 1 ≤ t.internalMaxSize) {fuel : Nat}
    {pairs : List (Int × V)} (h : t.Holds fuel pairs) : (pairs.map (·.1)).Nodup := by
  rcases h with ⟨-, rfl⟩ | ⟨N, hN, rfl⟩
  · exact List.nodup_nil
  · exact (unfold_inRange hlm him hN.unfold hN.pagesOk).2.1.imp ne_of_lt

end BPlusTree

/-! ## The executor -/

/-- What `NestIndexJoinExecutor` reads besides its child and its plan: `KeyPredicate()->Evaluate`,
the key read from a tuple through a schema; the inner table's `schema_`; `ScanKey` of the inner
table's index; and `GetTuple` of the inner table. -/
structure IndexJoinAccess (Tuple Schema Rid : Type) where
  keyPredicate : Tuple → Schema → Int
  rightSchema : Schema
  scanKey : Int → List Rid
  getTuple : Rid → Tuple

/-- `NestIndexJoinExecutor`: its child.  `left_tuple_` is written in each round before it is
read, so it carries nothing from one call to the next. -/
structure NestIndexJoinExecutor (Tuple : Type) where
  child : Child Tuple

namespace NestIndexJoinExecutor

variable {Schema Rid : Type} (access : IndexJoinAccess Tuple Schema Rid) (plan : JoinPlan Tuple)

/-- The constructor, over the output of the child. -/
def create (left : List Tuple) : NestIndexJoinExecutor Tuple := ⟨⟨left, left⟩⟩

/-- `Init()`: the child restarts. -/
def init (s : NestIndexJoinExecutor Tuple) : NestIndexJoinExecutor Tuple := ⟨s.child.init⟩

/-- The `while (true)` loop of `Next` over the tuples the child has still to yield: a round takes
the next left tuple, evaluates its key through the inner schema, and returns its join to the tuple
at the first rid `ScanKey` finds, or, when there is none, its padding on a left join; on an inner
join it goes on. -/
def loop : List Tuple → Option Tuple × List Tuple
  | [] => (none, [])
  | l :: rest =>
    match access.scanKey (access.keyPredicate l access.rightSchema) with
    | rid :: _ => (some (plan.joined l (access.getTuple rid)), rest)
    | [] => if plan.joinType = .left then (some (plan.padded l), rest) else loop rest

/-- `Next()`. -/
def next (s : NestIndexJoinExecutor Tuple) : Option Tuple × NestIndexJoinExecutor Tuple :=
  let r := loop access plan s.child.rest
  (r.1, ⟨{ s.child with rest := r.2 }⟩)

/-- What a left tuple contributes: its join to the tuple at the first rid `ScanKey` finds, or its
padding on a left join when there is none. -/
def indexJoinTuple (l : Tuple) : List Tuple :=
  match access.scanKey (access.keyPredicate l access.rightSchema) with
  | rid :: _ => [plan.joined l (access.getTuple rid)]
  | [] => if plan.joinType = .left then [plan.padded l] else []

/-- What the executor yields over the left tuples `left`. -/
def indexJoinOutput (left : List Tuple) : List Tuple := left.flatMap (indexJoinTuple access plan)

theorem length_indexJoinOutput_le (left : List Tuple) :
    (indexJoinOutput access plan left).length ≤ left.length := by
  induction left with
  | nil => rfl
  | cons l left ih =>
    have : (indexJoinTuple access plan l).length ≤ 1 := by
      unfold indexJoinTuple
      split
      · rfl
      · split <;> simp
    simp only [indexJoinOutput, List.flatMap_cons, List.length_append, List.length_cons] at ih ⊢
    omega

/-- A round of the loop yields the head of what the left tuples still to come contribute, and
leaves the rest of it to come. -/
theorem loop_yields : ∀ rest : List Tuple,
    YieldsHead (fun _ : List Tuple => True) (indexJoinOutput access plan) (loop access plan rest)
      (indexJoinOutput access plan rest)
  | [] => yieldsHead_nil rfl
  | l :: rest => by
    have hrest : rest.flatMap (indexJoinTuple access plan) = indexJoinOutput access plan rest := rfl
    rw [indexJoinOutput, List.flatMap_cons, hrest]
    simp only [loop, indexJoinTuple]
    split
    · exact yieldsHead_cons rfl trivial rfl
    · split
      · exact yieldsHead_cons rfl trivial rfl
      · exact loop_yields rest

theorem next_yields (s : NestIndexJoinExecutor Tuple) :
    YieldsHead (fun _ => True) (fun s : NestIndexJoinExecutor Tuple => indexJoinOutput access plan s.child.rest)
      (next access plan s) (indexJoinOutput access plan s.child.rest) :=
  ⟨(loop_yields access plan _).1, fun h => ⟨trivial, ((loop_yields access plan _).2 h).2⟩⟩

/-- `Init` and `Next` until false yield, for each left tuple in order, its join to the tuple at
the first rid `ScanKey` finds, or its padding, given more calls than there are left tuples. -/
theorem drain_eq_indexJoinOutput (left : List Tuple) {n : Nat} (hn : left.length < n) :
    drain (next access plan) n (create left).init = indexJoinOutput access plan left :=
  drain_eq_pending (fun s _ => next_yields access plan s) n _ trivial
    ((length_indexJoinOutput_le access plan left).trans_lt hn)

end NestIndexJoinExecutor

/-! ## The index join over a consistent index -/

section Consistent

variable {Schema Rid : Type} {keyPredicate : Tuple → Schema → Int} {leftSchema rightSchema : Schema}
  {innerKey : Tuple → Int} {getTuple : Rid → Tuple} {plan : JoinPlan Tuple}
  {pairs : List (Int × Rid)} {inner : List (Rid × Tuple)}

/-- Inner tuples of distinct keys: at most one of them has a given key. -/
theorem filter_key_subsingleton (hkeys : (inner.map fun e => innerKey e.2).Nodup) (k : Int) :
    inner.filter (fun e => k == innerKey e.2) = [] ∨
      ∃ e, inner.filter (fun e => k == innerKey e.2) = [e] := by
  match hM : inner.filter (fun e => k == innerKey e.2) with
  | [] => exact .inl hM
  | [e] => exact .inr ⟨e, hM⟩
  | e :: e' :: M =>
    -- two inner tuples of the key `k`
    have hsub : ((e :: e' :: M).map fun e => innerKey e.2).Nodup :=
      hkeys.sublist (hM ▸ (List.filter_sublist inner).map _)
    have hk : ∀ x ∈ e :: e' :: M, k = innerKey x.2 := fun x hx => by
      rw [← hM] at hx
      exact beq_iff_eq.mp (List.mem_filter.mp hx).2
    simp only [List.map_cons, List.nodup_cons, List.mem_cons] at hsub
    exact absurd (.inl ((hk e (by simp)).symm.trans (hk e' (by simp)))) hsub.1

variable (hindex : pairs.Perm (inner.map fun e => (innerKey e.2, e.1)))
include hindex

/-- The index's pairs are the inner tuples' keys and rids. -/
theorem mem_pairs_iff {p : Int × Rid} : p ∈ pairs ↔ ∃ e ∈ inner, innerKey e.2 = p.1 ∧ e.1 = p.2 := by
  rw [hindex.mem_iff, List.mem_map]
  exact ⟨fun ⟨e, he, hp⟩ => ⟨e, he, by rw [← hp], by rw [← hp]⟩,
    fun ⟨e, he, h₁, h₂⟩ => ⟨e, he, by rw [h₁, h₂]⟩⟩

include hindex in
/-- For each left tuple, the index join over a consistent index contributes what the nested-loop
join does. -/
theorem indexJoinTuple_eq_joinRest (hkeys : (inner.map fun e => innerKey e.2).Nodup)
    (hheap : ∀ e ∈ inner, getTuple e.1 = e.2) {l : Tuple}
    (hkey : keyPredicate l rightSchema = keyPredicate l leftSchema) :
    NestIndexJoinExecutor.indexJoinTuple
        ⟨keyPredicate, rightSchema, fun k => (pairs.lookup k).toList, getTuple⟩ plan l =
      joinRest (fun l r => keyPredicate l leftSchema == innerKey r) plan l (inner.map (·.2))
        false := by
  simp only [NestIndexJoinExecutor.indexJoinTuple, hkey, joinRest, Bool.false_or]
  generalize keyPredicate l leftSchema = k
  have hfilter : (inner.map (·.2)).filter (fun r => k == innerKey r) =
      (inner.filter fun e => k == innerKey e.2).map (·.2) := by
    rw [List.filter_map]
    rfl
  rw [hfilter]
  rcases filter_key_subsingleton hkeys k with hM | ⟨e, hM⟩
  · -- no inner tuple has the key, and neither does the index
    have hno : ∀ e ∈ inner, (k == innerKey e.2) = false := fun e he => by
      simpa using List.filter_eq_nil_iff.mp hM e he
    have hnone : pairs.lookup k = none := by
      refine List.lookup_eq_none_iff.mpr fun p hp => ?_
      obtain ⟨e, he, hk, -⟩ := (mem_pairs_iff hindex).mp hp
      rw [← hk]
      simpa using hno e he
    have hany : (inner.map (·.2)).any (fun r => k == innerKey r) = false :=
      List.any_eq_false.mpr fun r hr => by
        obtain ⟨e, he, rfl⟩ := List.mem_map.mp hr
        simp [hno e he]
    simp [hnone, hM, hany]
  · -- one inner tuple `e` has the key, and the index finds its rid
    have he : e ∈ inner ∧ k = innerKey e.2 := by
      have := List.mem_filter.mp (hM ▸ List.mem_singleton_self e)
      exact ⟨this.1, beq_iff_eq.mp this.2⟩
    have hsome : pairs.lookup k = some e.1 := by
      obtain ⟨rid, hrid⟩ := Option.isSome_iff_exists.mp ((List.lookup_isSome_iff (k := k)).mpr
        ⟨(k, e.1), (mem_pairs_iff hindex).mpr ⟨e, he.1, he.2.symm, rfl⟩, by simp⟩)
      obtain ⟨l₁, l₂, hsplit, -⟩ := List.lookup_eq_some_iff.mp hrid
      obtain ⟨e', he', hk, hr⟩ := (mem_pairs_iff hindex).mp (hsplit ▸ List.mem_append_right _
        (List.mem_cons_self _ _))
      have : e' ∈ inner.filter (fun e => k == innerKey e.2) :=
        List.mem_filter.mpr ⟨he', by simp [hk]⟩
      rw [hM, List.mem_singleton] at this
      rw [hrid, show rid = e'.1 from hr.symm, this]
    have hany : (inner.map (·.2)).any (fun r => k == innerKey r) = true :=
      List.any_eq_true.mpr ⟨e.2, List.mem_map_of_mem _ he.1, by simp [he.2]⟩
    simp [hsome, hM, hheap e he.1, hany]

end Consistent

/-- Over a B+ tree index that holds one pair per inner tuple, its key and its rid, with `GetTuple`
reading each inner tuple at its rid, and with the key predicate reading the same key from each
left tuple through the inner schema as through the left schema, `Init` and `Next` until false of
`NestIndexJoinExecutor`, and of `NestedLoopJoinExecutor` with the predicate "the left key equals
the inner tuple's key", yield the same tuples: each left tuple in order joined to the inner tuple
of its key, and on a left join padded when there is none. -/
theorem nestIndexJoin_eq_nestedLoopJoin {Schema Rid : Type} [Inhabited Rid] {t : BPlusTree Rid}
    (hlm : 2 ≤ t.leafMaxSize) (him : 1 ≤ t.internalMaxSize) {fuel : Nat}
    {pairs : List (Int × Rid)} (h : t.Holds fuel pairs) (keyPredicate : Tuple → Schema → Int)
    (leftSchema rightSchema : Schema) (innerKey : Tuple → Int) (getTuple : Rid → Tuple)
    (plan : JoinPlan Tuple) (left : List Tuple)
    (hschema : ∀ l ∈ left, keyPredicate l rightSchema = keyPredicate l leftSchema)
    {inner : List (Rid × Tuple)} (hindex : pairs.Perm (inner.map fun e => (innerKey e.2, e.1)))
    (hheap : ∀ e ∈ inner, getTuple e.1 = e.2) :
    ∃ bound, ∀ n nljFuel, bound ≤ n → bound ≤ nljFuel →
      drain (NestIndexJoinExecutor.next ⟨keyPredicate, rightSchema, t.scanKey fuel, getTuple⟩ plan)
          n (NestIndexJoinExecutor.create left).init =
        drain (NestedLoopJoinExecutor.next (fun l r => keyPredicate l leftSchema == innerKey r)
          plan nljFuel) n (NestedLoopJoinExecutor.create left (inner.map (·.2))).init ∧
      drain (NestIndexJoinExecutor.next ⟨keyPredicate, rightSchema, t.scanKey fuel, getTuple⟩ plan)
          n (NestIndexJoinExecutor.create left).init =
        joinOutput (fun l r => keyPredicate l leftSchema == innerKey r) plan left
          (inner.map (·.2)) := by
  have hkeys : (inner.map fun e => innerKey e.2).Nodup := by
    have := (hindex.map (·.1)).nodup_iff.mp (h.keys_nodup hlm him)
    rwa [List.map_map] at this
  have hscan : t.scanKey fuel = fun k => (pairs.lookup k).toList :=
    funext (BPlusTree.scanKey_eq hlm him h)
  -- the index join's output is the join, left tuple by left tuple
  have hout : NestIndexJoinExecutor.indexJoinOutput
      ⟨keyPredicate, rightSchema, t.scanKey fuel, getTuple⟩ plan left =
        joinOutput (fun l r => keyPredicate l leftSchema == innerKey r) plan left
          (inner.map (·.2)) := by
    rw [hscan]
    induction left with
    | nil => rfl
    | cons l left ih =>
      rw [NestIndexJoinExecutor.indexJoinOutput, List.flatMap_cons, joinOutput_cons,
        indexJoinTuple_eq_joinRest hindex hkeys hheap (hschema l (List.mem_cons_self _ _)),
        ← ih fun l' hl' => hschema l' (List.mem_cons_of_mem _ hl')]
      rfl
  refine ⟨(left.length + 1) * (inner.length + 1), fun n nljFuel hn hfuel => ?_⟩
  have hleft : left.length < n :=
    (Nat.lt_succ_self _).trans_le ((Nat.le_mul_of_pos_right _ (Nat.succ_pos _)).trans hn)
  have hindexJoin := NestIndexJoinExecutor.drain_eq_indexJoinOutput
    ⟨keyPredicate, rightSchema, t.scanKey fuel, getTuple⟩ plan left hleft
  rw [hout] at hindexJoin
  have hnested : drain (NestedLoopJoinExecutor.next
      (fun l r => keyPredicate l leftSchema == innerKey r) plan nljFuel) n
      (NestedLoopJoinExecutor.create left (inner.map (·.2))).init =
      joinOutput (fun l r => keyPredicate l leftSchema == innerKey r) plan left
        (inner.map (·.2)) :=
    NestedLoopJoinExecutor.drain_eq_joinOutput (by rwa [List.length_map])
      (hout ▸ (NestIndexJoinExecutor.length_indexJoinOutput_le _ _ left).trans_lt hleft)
  exact ⟨hindexJoin.trans hnested.symm, hindexJoin⟩

/-- A left join of the keys 2, 3 and 1 over the index of a root leaf that maps the keys 1 and 2
to the rids 10 and 20 of the inner tuples 1 and 2, with a key read alike through both schemas:
the keys 2 and 1 are joined, and 3 is padded. -/
theorem nestIndexJoin_eq_nestedLoopJoin_rootLeaf :
    let t : BPlusTree Nat :=
      ⟨PageStore.ofPages [(0, .leaf ⟨⟨2, 3, -1, 0⟩, -1, [(1, 10), (2, 20)]⟩)] 1, 0, 3, 3, []⟩
    let plan : JoinPlan Int := ⟨.left, fun l r => 100 * l + r, fun l => -l⟩
    let keyPredicate : Int → Bool → Int := fun l _ => l
    (∃ bound, ∀ n nljFuel, bound ≤ n → bound ≤ nljFuel →
      drain (NestIndexJoinExecutor.next
          ⟨keyPredicate, true, t.scanKey 1, fun rid => ((rid / 10 : Nat) : Int)⟩ plan) n
          (NestIndexJoinExecutor.create [2, 3, 1]).init =
        drain (NestedLoopJoinExecutor.next (fun l r => keyPredicate l false == id r) plan nljFuel) n
          (NestedLoopJoinExecutor.create [2, 3, 1] [1, 2]).init ∧
      drain (NestIndexJoinExecutor.next
          ⟨keyPredicate, true, t.scanKey 1, fun rid => ((rid / 10 : Nat) : Int)⟩ plan) n
          (NestIndexJoinExecutor.create [2, 3, 1]).init =
        joinOutput (fun l r => keyPredicate l false == id r) plan [2, 3, 1] [1, 2]) ∧
    joinOutput (fun l r => keyPredicate l false == id r) plan [2, 3, 1] [1, 2] = [202, -3, 101] := by
  intro t plan keyPredicate
  refine ⟨nestIndexJoin_eq_nestedLoopJoin (by decide) (by decide) ?_ keyPredicate false true id _ _
    [2, 3, 1]
    (fun _ _ => rfl)
    (show ([(1, 10), (2, 20)] : List (Int × Nat)).Perm
      (([(10, 1), (20, 2)] : List (Nat × Int)).map fun e => (id e.2, e.1)) from List.Perm.refl _)
    (by decide), rfl⟩
  exact .inr ⟨_, ⟨rfl, by decide, by decide, by decide, by decide⟩, rfl⟩

end Bustub
