import Bustub.Concurrency.LockRequestQueue
import Mathlib

/-!
# The waits-for graph of the deadlock detector

The detector keeps `waits_for_`, a set of successors for each transaction, and `txn_id_set_`,
which marks with 1 the transactions an edge was added for and with 0 those it aborted.  Each
round adds the edges of every queue (`addTableEdges`, `addRowEdges`), then calls `HasCycle` until
it returns false, aborting the transaction it names and removing its edges (`removeTxn`).

`HasCycle` starts a depth-first search (`dfs`) from the smallest marked transaction, and from the
smallest marked one not yet visited each time a search finds no cycle.  A search keeps the path
from its start on `cycle_stack`; `traversed_flag` is 1 exactly for the transactions on it, so the
model reads the flag as membership of the stack.  When the search meets a transaction on the
stack, `HasCycle` names the largest transaction on the stack, which need not lie on the cycle.

The header that declares `waits_for_` is not under src/; `AddEdge` calls `insert` and `DFS`
iterates the successors, which the spec describes in ascending order, so a successor set is a
sorted list without duplicates.  Each loop runs on fuel: `txnIds.length + 1` bounds the depth of a
search and the number of searches, and `edgeCount + 1` the number of victims, as the detector
module proves.
-/

namespace Bustub

open LockMode

/-- `waits_for_` and `txn_id_set_`: the successors of each transaction, whether its mark is 1,
and the transactions that have a mark. -/
structure WaitsForGraph where
  waitsFor : Int → List Int
  txnIdSet : Int → Bool
  txnIds : List Int

namespace WaitsForGraph

/-- The graph before the first round. -/
def empty : WaitsForGraph := ⟨fun _ => [], fun _ => false, []⟩

/-- `AddEdge(t1, t2)`. -/
def addEdge (g : WaitsForGraph) (t1 t2 : Int) : WaitsForGraph where
  waitsFor := Function.update g.waitsFor t1
    (if t2 ∈ g.waitsFor t1 then g.waitsFor t1 else (g.waitsFor t1).orderedInsert (· ≤ ·) t2)
  txnIdSet := Function.update (Function.update g.txnIdSet t1 true) t2 true
  txnIds := (g.txnIds.insert t1).insert t2

/-- `RemoveEdge(t1, t2)`. -/
def removeEdge (g : WaitsForGraph) (t1 t2 : Int) : WaitsForGraph :=
  { g with waitsFor := Function.update g.waitsFor t1 ((g.waitsFor t1).erase t2) }

/-- What the round does to the graph for a victim: `waits_for_.erase(txn_id)`, then
`RemoveEdge(t, txn_id)` for every remaining `t`. -/
def removeTxn (g : WaitsForGraph) (v : Int) : WaitsForGraph :=
  { g with waitsFor := fun t => if t = v then [] else (g.waitsFor t).erase v }

/-- The number of edges out of the marked transactions. -/
def edgeCount (g : WaitsForGraph) : Nat :=
  (g.txnIds.map fun t => (g.waitsFor t).length).sum

end WaitsForGraph

/-- One iteration of the loop of `DFS` over the successors of a transaction: nothing once a cycle
is found; a cycle when `next` is on the stack; otherwise the search from `next` (`visit`), whose
pushes are popped again when it finds none. -/
def dfsVisit (visit : Int → List Int → List Int → Bool × List Int × List Int)
    (acc : Bool × List Int × List Int) (next : Int) : Bool × List Int × List Int :=
  if acc.1 then acc
  else if next ∈ acc.2.1 then (true, acc.2)
  else
    let r := visit next acc.2.1 acc.2.2
    if r.1 then r else (false, acc.2.1, r.2.2)

/-- `DFS(txn_id, cycle_stack, traversed_flag, has_traversed_txn_set)` on the successor function
`w`, with at most `fuel` nested calls: whether it met a transaction on the stack, the stack (the
path on which it did, or the stack it started from), and the visited transactions. -/
def dfs (w : Int → List Int) : Nat → Int → List Int → List Int → Bool × List Int × List Int
  | 0, _, stack, traversed => (false, stack, traversed)
  | fuel + 1, txnId, stack, traversed =>
    let r := (w txnId).foldl (dfsVisit (dfs w fuel)) (false, txnId :: stack, txnId :: traversed)
    if r.1 then r else (false, stack, r.2.2)

namespace WaitsForGraph

/-- The smallest transaction marked 1 that is not in `avoid`. -/
def minStart (g : WaitsForGraph) (avoid : List Int) : Option Int :=
  (g.txnIds.filter fun t => g.txnIdSet t && !avoid.contains t).min?

/-- The loop of `HasCycle`: searches from `start`, then from the smallest marked transaction
not visited yet, until a search finds a cycle; the stack of that search. -/
def searchFrom (g : WaitsForGraph) : Nat → Int → List Int → Option (List Int)
  | 0, _, _ => none
  | fuel + 1, start, traversed =>
    let r := dfs g.waitsFor (g.txnIds.length + 1) start [] traversed
    if r.1 then some r.2.1
    else match g.minStart r.2.2 with
      | none => none
      | some start => g.searchFrom fuel start r.2.2

/-- `HasCycle(&txn_id)`: the largest transaction on the stack of the search that found a cycle,
and the graph with its mark set to 0. -/
def hasCycle (g : WaitsForGraph) : Option (Int × WaitsForGraph) :=
  match g.minStart [] with
  | none => none
  | some start =>
    match g.searchFrom (g.txnIds.length + 1) start [] with
    | none => none
    | some stack => stack.max?.map fun v => (v, { g with txnIdSet := Function.update g.txnIdSet v false })

end WaitsForGraph

/-- The pairs of a list with the first before the second, in the order of the two loops of the
round over a queue. -/
def orderedPairs {α : Type} : List α → List (α × α)
  | [] => []
  | a :: l => l.map (a, ·) ++ orderedPairs l

/-- Whether the round adds an edge for two requests of a queue: one granted, one waiting, with
modes `GrantCompatiable` rejects. -/
def conflicting (first second : LockRequest) : Bool :=
  ((first.granted && !second.granted) || (!first.granted && second.granted)) &&
    !grantCompatiable first.lockMode second.lockMode

/-- The edges the round adds for a table queue: from the waiting request to the granted one. -/
def addTableEdges (g : WaitsForGraph) (q : LockRequestQueue) : WaitsForGraph :=
  (orderedPairs q.requestQueue).foldl
    (fun g p =>
      if conflicting p.1 p.2 then
        if p.1.granted then g.addEdge p.2.txnId p.1.txnId else g.addEdge p.1.txnId p.2.txnId
      else g) g

/-- The edges the round adds for a row queue: from the granted request to the waiting one. -/
def addRowEdges (g : WaitsForGraph) (q : LockRequestQueue) : WaitsForGraph :=
  (orderedPairs q.requestQueue).foldl
    (fun g p =>
      if conflicting p.1 p.2 then
        if p.1.granted then g.addEdge p.1.txnId p.2.txnId else g.addEdge p.2.txnId p.1.txnId
      else g) g

end Bustub
