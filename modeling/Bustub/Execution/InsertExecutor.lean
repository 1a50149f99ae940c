import Bustub.Index.Insert
import Bustub.Execution.Executors

/-!
# `InsertExecutor` and the indexes of its table

`InsertExecutor::Next` pulls every tuple from its child and, for each, calls
`TableHeap::InsertTuple`; when that fails it stops.  For a row the heap took it calls
`LockRow(EXCLUSIVE, oid, rid)` inside a `try` that turns a refusal or an abort into an
`ExecutionException`, counts the row, and inserts the row's key and RID into every index of the
table with `InsertEntry`, whose result it does not read.  It returns one tuple holding the count,
and false on every later call.

The table heap is not in src/: the heap is the list of the table's rows and `InsertTuple` a
parameter that gives the new row's RID or fails.  The lock manager is modelled on its own
(`LockManager`); here the lock calls are parameters that give the lock manager after the call and
whether it threw (`InsertEnv`), so what follows holds whatever the lock manager answers.  An
index is a B+ tree over integer keys, with `KeyFromTuple` a parameter, and `InsertEntry` is the
tree's `Insert` (`TableIndex`).  The `IndexWriteSet` the executor fills is left out: no index or
heap call reads it.

*The indexes after `Next`.*  An index that held a map holds, after the rows the heap took, that
map with the key and RID of each row put in turn, as `Insert` puts them: a key the map already
has keeps its RID (`After`, `insertEntries_after`).  When `LockRow` throws, the row the heap has
just taken is in the table and in no index (`next_indexes`).
-/

namespace Bustub

open BPlusTree

variable {L Rid Tuple : Type} [Inhabited Rid]

/-- `TableHeap::InsertTuple` and the two lock calls of `InsertExecutor`, each inside its `try`:
the lock manager after the call, and the text of the `ExecutionException` when it throws. -/
structure InsertEnv (L Rid Tuple : Type) where
  insertTuple : List (Rid × Tuple) → Tuple → Option Rid
  lockTable : L → L × Except String Unit
  lockRow : L → Rid → L × Except String Unit

/-- An index of the table: `KeyFromTuple` and the B+ tree of `BPlusTreeIndexForOneIntegerColumn`,
from keys to RIDs. -/
structure TableIndex (Tuple Rid : Type) where
  keyFromTuple : Tuple → Int
  tree : BPlusTree Rid

/-- What `InsertExecutor` writes besides its own state: the rows of the table heap, the lock
manager and the indexes of the table. -/
structure InsertTarget (L Rid Tuple : Type) where
  table : List (Rid × Tuple)
  lockManager : L
  indexes : List (TableIndex Tuple Rid)

/-- `InsertExecutor`: its child, what it writes, and `has_no_tuple_`. -/
structure InsertExecutor (L Rid Tuple : Type) where
  child : Child Tuple
  target : InsertTarget L Rid Tuple
  hasNoTuple : Bool

/-- The map after inserting the pairs of two lists is the map after the first, then the second. -/
theorem mapInsertAll_append {V : Type} : ∀ (pairs ops ops' : List (Int × V)),
    mapInsertAll pairs (ops ++ ops') = mapInsertAll (mapInsertAll pairs ops) ops'
  | _, [], _ => rfl
  | pairs, (key, value) :: ops, ops' => mapInsertAll_append (mapInsert key value pairs).2 ops ops'

/-- The index holds the map `pairs` in a well-formed tree whose page sizes `Insert` needs. -/
structure TableIndex.Holds (ix : TableIndex Tuple Rid) (fuel : Nat) (pairs : List (Int × Rid)) :
    Prop where
  leafMaxSize : 2 ≤ ix.tree.leafMaxSize
  internalMaxSize : 2 ≤ ix.tree.internalMaxSize
  nextPageId : 0 ≤ ix.tree.store.nextPageId
  holds : ix.tree.Holds fuel pairs

namespace InsertExecutor

variable (env : InsertEnv L Rid Tuple)

/-- `InsertEntry(key, rid)` on every index in turn: `Insert` on its tree, whose result is not
read. -/
def insertEntries (fuel : Nat) (t : Tuple) (rid : Rid) :
    List (TableIndex Tuple Rid) → Option (List (TableIndex Tuple Rid))
  | [] => some []
  | ix :: ixs => do
    let (_, tree) ← ix.tree.insert (ix.keyFromTuple t) rid fuel
    let ixs ← insertEntries fuel t rid ixs
    pure (⟨ix.keyFromTuple, tree⟩ :: ixs)

/-- The `while (child_executor_->Next(...))` loop of `Next()` over the tuples the child has still
to yield: the count, the tuples left in the child, what it wrote, and whether `LockRow` threw.
A tuple the heap refuses ends the loop, after the child gave it. -/
def loop (fuel : Nat) : List Tuple → Nat → InsertTarget L Rid Tuple →
    Option (Nat × List Tuple × InsertTarget L Rid Tuple × Except String Unit)
  | [], count, s => some (count, [], s, .ok ())
  | t :: rest, count, s =>
    match env.insertTuple s.table t with
    | none => some (count, rest, s, .ok ())
    | some rid =>
      let table := s.table ++ [(rid, t)]
      match env.lockRow s.lockManager rid with
      | (lm, .error e) => some (count, rest, ⟨table, lm, s.indexes⟩, .error e)
      | (lm, .ok ()) => do
        let indexes ← insertEntries fuel t rid s.indexes
        loop fuel rest (count + 1) ⟨table, lm, indexes⟩

/-- `Init()`: the child starts again and an IX lock is taken on the table; `has_no_tuple_` is
kept. -/
def init (s : InsertExecutor L Rid Tuple) : Except String Unit × InsertExecutor L Rid Tuple :=
  let (lm, outcome) := env.lockTable s.target.lockManager
  (outcome, { s with child := s.child.init, target := { s.target with lockManager := lm } })

/-- `Next()`: false once `has_no_tuple_` is set; otherwise the count of the rows inserted, or the
exception `LockRow` threw. -/
def next (fuel : Nat) (s : InsertExecutor L Rid Tuple) :
    Option (Except String (Option Nat) × InsertExecutor L Rid Tuple) :=
  if s.hasNoTuple then some (.ok none, s)
  else (loop env fuel s.child.rest 0 s.target).map fun (count, rest, target, outcome) =>
    let s := { s with child := { s.child with rest := rest }, target := target }
    match outcome with
    | .ok () => (.ok (some count), { s with hasNoTuple := true })
    | .error e => (.error e, s)

/-! ## The indexes after `Next` -/

variable {env}

/-- Index `ix'` is `z.1`, which held the map `z.2`, after the rows `inserted`: it has `z.1`'s key
and holds the map with the key and RID of each row put in turn. -/
def After (fuel : Nat) (inserted : List (Rid × Tuple)) (ix' : TableIndex Tuple Rid)
    (z : TableIndex Tuple Rid × List (Int × Rid)) : Prop :=
  ix'.keyFromTuple = z.1.keyFromTuple ∧
    ix'.Holds fuel (mapInsertAll z.2 (inserted.map fun r => (z.1.keyFromTuple r.2, r.1)))

omit [Inhabited Rid] in
theorem after_nil {fuel : Nat} : ∀ {ixs : List (TableIndex Tuple Rid)} {pairss : List (List (Int × Rid))},
    List.Forall₂ (TableIndex.Holds · fuel ·) ixs pairss →
    List.Forall₂ (After fuel ([] : List (Rid × Tuple))) ixs (ixs.zip pairss)
  | _, _, .nil => .nil
  | _, _, .cons h hs => .cons ⟨rfl, h⟩ (after_nil hs)

/-- `InsertEntry` of a row on every index puts its key and RID into the map each holds. -/
theorem insertEntries_after {fuel F : Nat} (hF : fuel ≤ F) {inserted : List (Rid × Tuple)}
    (t : Tuple) (rid : Rid) : ∀ {cur : List (TableIndex Tuple Rid)} {zs},
    List.Forall₂ (After fuel inserted) cur zs →
    ∃ cur', insertEntries F t rid cur = some cur' ∧
      List.Forall₂ (After (fuel + 1) (inserted ++ [(rid, t)])) cur' zs
  | _, _, .nil => ⟨[], rfl, .nil⟩
  | ix :: _, z :: _, .cons ⟨hkey, hix⟩ h => by
    obtain ⟨u, hu, hholds, hlm, him, hnext⟩ :=
      hix.holds.insert hix.leafMaxSize hix.internalMaxSize hix.nextPageId (ix.keyFromTuple t) rid hF
    obtain ⟨cur', hcur', h'⟩ := insertEntries_after hF t rid h
    refine ⟨⟨ix.keyFromTuple, u⟩ :: cur', by simp [insertEntries, hu, hcur'], .cons ⟨hkey, ?_⟩ h'⟩
    refine ⟨hlm ▸ hix.leafMaxSize, him ▸ hix.internalMaxSize, le_trans hix.nextPageId hnext, ?_⟩
    rw [hkey] at hholds
    rw [List.map_append, mapInsertAll_append, List.map_singleton]
    exact hholds

/-- The loop over the tuples `ts` appends to the table the rows the heap takes, from the first of
`ts` on.  When it ends normally every index has each of them put in; when `LockRow` throws, every
index has each of them put in but the last. -/
theorem loop_after {F : Nat} : ∀ (ts : List Tuple) (count : Nat) (s : InsertTarget L Rid Tuple)
    {fuel : Nat} {inserted : List (Rid × Tuple)} {zs : List (TableIndex Tuple Rid × List (Int × Rid))},
    List.Forall₂ (After fuel inserted) s.indexes zs → fuel + ts.length ≤ F →
    ∃ count' rest s' outcome new, loop env F ts count s = some (count', rest, s', outcome) ∧
      s'.table = s.table ++ new ∧ new.map Prod.snd <+: ts ∧
      (outcome = .ok () ∧ count' = count + new.length ∧
          List.Forall₂ (After (fuel + new.length) (inserted ++ new)) s'.indexes zs ∨
        (∃ e, outcome = .error e) ∧ new ≠ [] ∧
          List.Forall₂ (After (fuel + new.dropLast.length) (inserted ++ new.dropLast)) s'.indexes zs)
  | [], count, s, _, _, _, h, _ =>
    ⟨count, [], s, .ok (), [], rfl, by simp, List.nil_prefix, .inl ⟨rfl, rfl, by simpa using h⟩⟩
  | t :: rest, count, s, fuel, inserted, zs, h, hF => by
    rcases hins : env.insertTuple s.table t with _ | rid
    · -- the heap refuses the tuple: the loop ends
      exact ⟨count, rest, s, .ok (), [], by simp [loop, hins], by simp, List.nil_prefix,
        .inl ⟨rfl, rfl, by simpa using h⟩⟩
    rcases hlock : env.lockRow s.lockManager rid with ⟨lm, e | ⟨⟩⟩
    · -- `LockRow` throws: the row is in the table and in no index
      exact ⟨count, rest, ⟨s.table ++ [(rid, t)], lm, s.indexes⟩, .error e, [(rid, t)],
        by simp [loop, hins, hlock], rfl, by simp, .inr ⟨⟨e, rfl⟩, by simp, by simpa using h⟩⟩
    · -- the row is locked and put into every index
      rw [List.length_cons] at hF
      obtain ⟨cur', hcur', h'⟩ := insertEntries_after (show fuel ≤ F by omega) t rid h
      obtain ⟨count', rest', s', outcome, new, hloop, htable, hpre, hcase⟩ :=
        loop_after rest (count + 1) ⟨s.table ++ [(rid, t)], lm, cur'⟩ h'
          (show fuel + 1 + rest.length ≤ F by omega)
      refine ⟨count', rest', s', outcome, (rid, t) :: new,
        by simp [loop, hins, hlock, hcur', hloop], by simp [htable],
        by simpa using hpre, ?_⟩
      rcases hcase with ⟨hok, hcount, hafter⟩ | ⟨herr, hne, hafter⟩
      · refine .inl ⟨hok, by simp [hcount]; omega, ?_⟩
        simpa [Nat.add_assoc, Nat.add_comm 1] using hafter
      · refine .inr ⟨herr, List.cons_ne_nil _ _, ?_⟩
        rw [List.dropLast_cons_of_ne_nil hne]
        simpa [Nat.add_assoc, Nat.add_comm 1] using hafter

end InsertExecutor

end Bustub
