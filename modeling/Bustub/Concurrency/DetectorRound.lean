import Bustub.Concurrency.CycleSearch
import Bustub.Concurrency.QueueInvariant

/-!
# A round of the deadlock detector

A round adds to `waits_for_` the edges of every queue, and then aborts the transaction
`HasCycle` names until it names none.  This module says what the round does with the graph `W`
it builds (`RoundOk`):

* `HasCycle` returns false when the round ends: each victim reaches a cycle, so it has an edge,
  and removing it removes an edge, so `edgeCount + 1` victims are more than the loop can take
  (`abortVictims_stops`);
* the round changes a transaction only by aborting it, and only one that reaches a cycle of `W`
  (`Pruned.step`); the victim is the largest transaction on the stack of the search, so it need
  not lie on the cycle;
* no cycle of `W` is left among the transactions it has not aborted.

`W` is the graph of earlier rounds with the edges of the queues added (`mem_buildGraph`): for a
table queue an edge from the waiting request's transaction to the granted one's, whenever
`GrantCompatiable` rejects their modes (`Blocks`), and for a row queue the same edge reversed.
The graph of earlier rounds is never cleared, so `W` keeps edges of waits that have ended.

All of this holds from every reachable state (`runCycleDetection_roundOk`): the keys of
the two maps cover every non-empty queue, and the detector's graph stays well formed
(`Tracked`).  Against the waits-for graph of the spec, whose edges are the `Blocks` of every
queue (`WaitsForEdge`), a round can abort a transaction on no cycle of it, and can leave one of
its cycles in place.
-/

namespace Bustub

open Relation LockMode

/-! ## The edges of a queue -/

/-- Modelled from the spec: the queue holds an ungranted request of `t` and a granted request
of `u` whose modes `GrantCompatiable` rejects. -/
def Blocks (q : LockRequestQueue) (t u : Int) : Prop :=
  ∃ a ∈ q.requestQueue, ∃ b ∈ q.requestQueue, a.txnId = t ∧ a.granted = false ∧ b.txnId = u ∧
    b.granted = true ∧ grantCompatiable a.lockMode b.lockMode = false

instance (q : LockRequestQueue) (t u : Int) : Decidable (Blocks q t u) :=
  inferInstanceAs (Decidable (∃ a ∈ q.requestQueue, ∃ b ∈ q.requestQueue, a.txnId = t ∧
    a.granted = false ∧ b.txnId = u ∧ b.granted = true ∧
    grantCompatiable a.lockMode b.lockMode = false))

theorem Blocks.ne_nil {q : LockRequestQueue} {t u : Int} (h : Blocks q t u) :
    q.requestQueue ≠ [] := by
  obtain ⟨a, ha, -⟩ := h
  exact List.ne_nil_of_mem ha

theorem Blocks.mem_txnIds {q : LockRequestQueue} {t u : Int} (h : Blocks q t u) :
    u ∈ q.requestQueue.map (·.txnId) := by
  obtain ⟨-, -, b, hb, -, -, rfl, -⟩ := h
  exact List.mem_map_of_mem _ hb

/-- A pair of requests the round adds an edge for: one of them waits for `u`'s granted request
in a mode `GrantCompatiable` rejects. -/
def PairBlocks (p : LockRequest × LockRequest) (t u : Int) : Prop :=
  ∃ a b, (p = (a, b) ∨ p = (b, a)) ∧ a.txnId = t ∧ a.granted = false ∧ b.txnId = u ∧
    b.granted = true ∧ grantCompatiable a.lockMode b.lockMode = false

theorem mem_orderedPairs {α : Type} {l : List α} {a b : α} :
    (a, b) ∈ orderedPairs l ↔ List.Sublist [a, b] l := by
  induction l with
  | nil => simp [orderedPairs]
  | cons c l ih =>
    simp only [orderedPairs, List.mem_append, List.mem_map, Prod.mk.injEq, ih,
      List.sublist_cons_iff, List.cons.injEq, List.singleton_sublist]
    constructor
    · rintro (⟨x, hx, rfl, rfl⟩ | h)
      · exact .inr ⟨[x], ⟨rfl, rfl⟩, List.singleton_sublist.mpr hx⟩
      · exact .inl h
    · rintro (h | ⟨r, ⟨rfl, rfl⟩, hr⟩)
      · exact .inr h
      · exact .inl ⟨b, List.singleton_sublist.mp hr, rfl, rfl⟩

/-- Two different members of a list stand in it in one order or the other. -/
theorem pair_sublist_of_mem {α : Type} {l : List α} {a b : α} (ha : a ∈ l) (hb : b ∈ l)
    (hab : a ≠ b) : List.Sublist [a, b] l ∨ List.Sublist [b, a] l := by
  induction l with
  | nil => cases ha
  | cons c l ih =>
    rcases List.mem_cons.mp ha with rfl | ha'
    · have hb' : b ∈ l := (List.mem_cons.mp hb).resolve_left fun h => hab h.symm
      exact .inl ((List.singleton_sublist.mpr hb').cons₂ a)
    · rcases List.mem_cons.mp hb with rfl | hb'
      · exact .inr ((List.singleton_sublist.mpr ha').cons₂ b)
      · exact (ih ha' hb').imp (·.cons c) (·.cons c)

/-- The pairs the round adds an edge for are the `Blocks` of the queue, whichever request comes
first. -/
theorem blocks_iff_pairBlocks {q : LockRequestQueue} {t u : Int} :
    Blocks q t u ↔ ∃ p ∈ orderedPairs q.requestQueue, PairBlocks p t u := by
  constructor
  · rintro ⟨a, ha, b, hb, hat, hag, hbu, hbg, hc⟩
    have hab : a ≠ b := fun h => by rw [h, hbg] at hag; cases hag
    rcases pair_sublist_of_mem ha hb hab with h | h
    · exact ⟨(a, b), mem_orderedPairs.mpr h, a, b, .inl rfl, hat, hag, hbu, hbg, hc⟩
    · exact ⟨(b, a), mem_orderedPairs.mpr h, a, b, .inr rfl, hat, hag, hbu, hbg, hc⟩
  · rintro ⟨p, hp, a, b, hp', hat, hag, hbu, hbg, hc⟩
    have hmem : ∀ {x y : LockRequest}, (x, y) ∈ orderedPairs q.requestQueue →
        x ∈ q.requestQueue ∧ y ∈ q.requestQueue := fun h => by
      have hs := (mem_orderedPairs.mp h).subset
      exact ⟨hs (List.mem_cons_self _ _), hs (List.mem_cons_of_mem _ (List.mem_cons_self _ _))⟩
    rcases hp' with rfl | rfl
    · exact ⟨a, (hmem hp).1, b, (hmem hp).2, hat, hag, hbu, hbg, hc⟩
    · exact ⟨a, (hmem hp).2, b, (hmem hp).1, hat, hag, hbu, hbg, hc⟩

/-- `conflicting` holds of a pair with its granted request first exactly when the second waits for
the first. -/
theorem pairBlocks_of_granted {c d : LockRequest} (hc : c.granted = true) {t u : Int} :
    PairBlocks (c, d) t u ↔ conflicting c d = true ∧ t = d.txnId ∧ u = c.txnId := by
  constructor
  · rintro ⟨a, b, (h | h), hat, hag, hbu, hbg, hcomp⟩ <;> simp only [Prod.mk.injEq] at h <;>
      obtain ⟨rfl, rfl⟩ := h
    · rw [hc] at hag; cases hag
    · rw [grantCompatiable_comm] at hcomp
      simp [conflicting, hbg, hag, hcomp, hat, hbu]
  · rintro ⟨hconf, rfl, rfl⟩
    simp only [conflicting, hc, Bool.true_and, Bool.not_true, Bool.false_and, Bool.or_false,
      Bool.and_eq_true, Bool.not_eq_true'] at hconf
    exact ⟨d, c, .inr rfl, rfl, hconf.1, rfl, hc, by rw [grantCompatiable_comm]; exact hconf.2⟩

/-- `conflicting` holds of a pair with its waiting request first exactly when the first waits for
the second. -/
theorem pairBlocks_of_waiting {c d : LockRequest} (hc : c.granted = false) {t u : Int} :
    PairBlocks (c, d) t u ↔ conflicting c d = true ∧ t = c.txnId ∧ u = d.txnId := by
  constructor
  · rintro ⟨a, b, (h | h), hat, hag, hbu, hbg, hcomp⟩ <;> simp only [Prod.mk.injEq] at h <;>
      obtain ⟨rfl, rfl⟩ := h
    · simp [conflicting, hbg, hag, hcomp, hat, hbu]
    · rw [hc] at hbg; cases hbg
  · rintro ⟨hconf, rfl, rfl⟩
    simp only [conflicting, hc, Bool.false_and, Bool.not_false, Bool.true_and, Bool.false_or,
      Bool.and_eq_true, Bool.not_eq_true'] at hconf
    exact ⟨c, d, .inl rfl, rfl, hc, rfl, hconf.1, hconf.2⟩

/-! ## The graph a round builds -/

namespace WaitsForGraph

variable {g : WaitsForGraph} {t1 t2 x y v : Int}

theorem mem_addEdge : y ∈ (g.addEdge t1 t2).waitsFor x ↔ y ∈ g.waitsFor x ∨ (x = t1 ∧ y = t2) := by
  by_cases hx : x = t1
  · subst hx
    by_cases h2 : t2 ∈ g.waitsFor x
    · simp only [addEdge, Function.update_same, if_pos h2, true_and]
      exact ⟨.inl, fun h => h.elim id (· ▸ h2)⟩
    · simp [addEdge, h2, List.mem_orderedInsert, or_comm]
  · simp [addEdge, hx]

theorem mem_removeTxn (hnodup : (g.waitsFor x).Nodup) :
    y ∈ (g.removeTxn v).waitsFor x ↔ x ≠ v ∧ y ≠ v ∧ y ∈ g.waitsFor x := by
  by_cases hx : x = v
  · simp [removeTxn, hx]
  · simp [removeTxn, hx, hnodup.mem_erase_iff]

/-- What `HasCycle` needs of the graph: every edge leaves a marked transaction and ends at a known
one; a successor set has no duplicates, as a `std::set` has none. -/
structure GraphOk (g : WaitsForGraph) : Prop where
  target_mem : ∀ x y, y ∈ g.waitsFor x → y ∈ g.txnIds
  source_mem : ∀ x, g.waitsFor x ≠ [] → x ∈ g.txnIds ∧ g.txnIdSet x = true
  nodup : ∀ x, (g.waitsFor x).Nodup

theorem graphOk_empty : empty.GraphOk where
  target_mem _ _ h := absurd h (List.not_mem_nil _)
  source_mem _ h := absurd rfl h
  nodup _ := List.nodup_nil

theorem GraphOk.addEdge (h : g.GraphOk) (t1 t2 : Int) : (g.addEdge t1 t2).GraphOk where
  target_mem x y hy := by
    rcases mem_addEdge.mp hy with hy | ⟨-, rfl⟩
    · exact List.mem_insert_of_mem (List.mem_insert_of_mem (h.target_mem x y hy))
    · exact List.mem_insert_self _ _
  source_mem x hx := by
    by_cases e : x = t1
    · subst e
      simp [WaitsForGraph.addEdge, Function.update_apply]
    · have hw : (g.addEdge t1 t2).waitsFor x = g.waitsFor x := by simp [WaitsForGraph.addEdge, e]
      obtain ⟨h₁, h₂⟩ := h.source_mem x (hw ▸ hx)
      exact ⟨List.mem_insert_of_mem (List.mem_insert_of_mem h₁),
        by simp [WaitsForGraph.addEdge, Function.update_apply, h₂]⟩
  nodup x := by
    by_cases e : x = t1
    · subst e
      simp only [WaitsForGraph.addEdge, Function.update_same]
      split_ifs with h2
      · exact h.nodup x
      · exact (List.perm_orderedInsert _ _ _).nodup_iff.mpr (List.nodup_cons.mpr ⟨h2, h.nodup x⟩)
    · simpa [WaitsForGraph.addEdge, e] using h.nodup x

/-- What the round does to the graph for a victim that `HasCycle` has unmarked. -/
theorem GraphOk.removeTxn (h : g.GraphOk) (v : Int) :
    ({ g with txnIdSet := Function.update g.txnIdSet v false } : WaitsForGraph).removeTxn v |>.GraphOk where
  target_mem x y hy := h.target_mem x y ((mem_removeTxn (h.nodup x)).mp hy).2.2
  source_mem x hx := by
    by_cases e : x = v
    · simp [WaitsForGraph.removeTxn, e] at hx
    · have hx' : g.waitsFor x ≠ [] := fun h0 => hx (by simp [WaitsForGraph.removeTxn, e, h0])
      simpa [WaitsForGraph.removeTxn, Function.update_noteq e] using h.source_mem x hx'
  nodup x := by
    by_cases e : x = v
    · simp [WaitsForGraph.removeTxn, e]
    · simpa [WaitsForGraph.removeTxn, e] using (h.nodup x).erase v

/-- Removing a transaction with an edge removes an edge. -/
theorem GraphOk.edgeCount_removeTxn_lt (h : g.GraphOk) (hv : g.waitsFor v ≠ []) :
    (g.removeTxn v).edgeCount < g.edgeCount := by
  refine List.sum_lt_sum _ _ (fun t _ => ?_) ⟨v, (h.source_mem v hv).1, ?_⟩
  · by_cases e : t = v
    · simp [WaitsForGraph.removeTxn, e]
    · simpa [WaitsForGraph.removeTxn, e] using List.length_erase_le v (g.waitsFor t)
  · simpa [WaitsForGraph.removeTxn] using List.length_pos.mpr hv

/-- Folding edge additions: the edges are those of the start and those the items add. -/
theorem mem_foldl {α : Type} (f : WaitsForGraph → α → WaitsForGraph) (E : α → Int → Int → Prop)
    (hf : ∀ g a x y, y ∈ (f g a).waitsFor x ↔ y ∈ g.waitsFor x ∨ E a x y) (l : List α)
    (g : WaitsForGraph) : y ∈ (l.foldl f g).waitsFor x ↔ y ∈ g.waitsFor x ∨ ∃ a ∈ l, E a x y := by
  induction l generalizing g with
  | nil => simp
  | cons a l ih =>
    rw [List.foldl_cons, ih, hf]
    simp only [List.mem_cons, exists_eq_or_imp]
    tauto

end WaitsForGraph

open WaitsForGraph

/-- The table edges of a queue: from the waiting transaction to the granted one. -/
theorem mem_addTableEdges {g : WaitsForGraph} {q : LockRequestQueue} {x y : Int} :
    y ∈ (addTableEdges g q).waitsFor x ↔ y ∈ g.waitsFor x ∨ Blocks q x y := by
  rw [blocks_iff_pairBlocks, addTableEdges, mem_foldl _ (fun p x y => PairBlocks p x y)]
  rintro g ⟨c, d⟩ x y
  cases hc : c.granted
  · rw [pairBlocks_of_waiting hc]
    by_cases hconf : conflicting c d = true <;> simp [hconf, hc, mem_addEdge]
  · rw [pairBlocks_of_granted hc]
    by_cases hconf : conflicting c d = true <;> simp [hconf, hc, mem_addEdge]

/-- The row edges of a queue: from the granted transaction to the waiting one, the reverse of
`Blocks`. -/
theorem mem_addRowEdges {g : WaitsForGraph} {q : LockRequestQueue} {x y : Int} :
    y ∈ (addRowEdges g q).waitsFor x ↔ y ∈ g.waitsFor x ∨ Blocks q y x := by
  rw [blocks_iff_pairBlocks, addRowEdges, mem_foldl _ (fun p x y => PairBlocks p y x)]
  rintro g ⟨c, d⟩ x y
  cases hc : c.granted
  · rw [pairBlocks_of_waiting hc]
    by_cases hconf : conflicting c d = true <;> simp [hconf, hc, mem_addEdge, and_comm]
  · rw [pairBlocks_of_granted hc]
    by_cases hconf : conflicting c d = true <;> simp [hconf, hc, mem_addEdge, and_comm]

theorem WaitsForGraph.GraphOk.addTableEdges {g : WaitsForGraph} (h : g.GraphOk) (q : LockRequestQueue) :
    (addTableEdges g q).GraphOk :=
  foldl_invariant _ GraphOk h fun g _ _ hg => by
    split_ifs
    all_goals first | exact hg.addEdge _ _ | exact hg

theorem WaitsForGraph.GraphOk.addRowEdges {g : WaitsForGraph} (h : g.GraphOk) (q : LockRequestQueue) :
    (addRowEdges g q).GraphOk :=
  foldl_invariant _ GraphOk h fun g _ _ hg => by
    split_ifs
    all_goals first | exact hg.addEdge _ _ | exact hg

/-! ## Cycles that cannot close -/

/-- No cycle passes through `v` when its edges lead from `v` into a set `S` that no edge
leaves. -/
theorem not_transGen_of_closed {r : Int → Int → Prop} (S : List Int) {v : Int} (hvS : v ∉ S)
    (hS : ∀ x ∈ v :: S, ∀ y, r x y → y ∈ S) : ¬TransGen r v v := by
  have hreach : ∀ y, TransGen r v y → y ∈ S := fun y hy => by
    induction hy with
    | single h => exact hS v (List.mem_cons_self _ _) _ h
    | tail _ hyz ih => exact hS _ (List.mem_cons_of_mem _ ih) _ hyz
  exact fun h => hvS (hreach v h)

theorem not_onCycle_of_closed {w : Int → List Int} (S : List Int) {v : Int} (hvS : v ∉ S)
    (hS : ∀ x ∈ v :: S, ∀ y ∈ w x, y ∈ S) : ¬OnCycle w v :=
  not_transGen_of_closed S hvS hS

namespace LockManager

variable {R : Type} {m m' : LockManager R}

/-- The edges of the graph a round builds: those of earlier rounds, the `Blocks` of every table
queue under a key, and the `Blocks` of every row queue under a key, reversed. -/
theorem mem_buildGraph {t u : Int} :
    u ∈ m.buildGraph.waitsFor t ↔ u ∈ m.graph.waitsFor t ∨
      (∃ oid ∈ m.tableOids, Blocks (m.tableLockMap oid) t u) ∨
      ∃ rid ∈ m.rowRids, Blocks (m.rowLockMap rid) u t := by
  rw [buildGraph, mem_foldl _ (fun rid t u => Blocks (m.rowLockMap rid) u t)
    (fun _ _ _ _ => mem_addRowEdges), mem_foldl _ (fun oid t u => Blocks (m.tableLockMap oid) t u)
    (fun _ _ _ _ => mem_addTableEdges), or_assoc]

theorem graphOk_buildGraph (h : m.graph.GraphOk) : m.buildGraph.GraphOk :=
  foldl_invariant _ GraphOk (foldl_invariant _ GraphOk h fun _ _ _ hg => hg.addTableEdges _)
    fun _ _ _ hg => hg.addRowEdges _

/-! ## The victim loop -/

/-- The victim loop changes only the graph and the transactions. -/
theorem abortVictims_eq (fuel : Nat) (m : LockManager R) :
    abortVictims fuel m =
      { m with graph := (abortVictims fuel m).graph, txns := (abortVictims fuel m).txns } := by
  induction fuel generalizing m with
  | zero => rfl
  | succ fuel ih =>
    unfold abortVictims
    split
    · rfl
    · exact ih _

/-- With more fuel than edges, the victim loop ends where `HasCycle` returns false. -/
theorem abortVictims_stops {fuel : Nat} (hg : m.graph.GraphOk) (hfuel : m.graph.edgeCount < fuel) :
    (abortVictims fuel m).graph.hasCycle = none := by
  induction fuel generalizing m with
  | zero => exact absurd hfuel (Nat.not_lt_zero _)
  | succ fuel ih =>
    unfold abortVictims
    split
    · assumption
    · rename_i v g hc
      obtain ⟨hcyc, rfl⟩ := hasCycle_some hc
      have hlt := hg.edgeCount_removeTxn_lt (v := v) hcyc.ne_nil
      exact ih (hg.removeTxn v) (Nat.lt_of_lt_of_le hlt (Nat.le_of_lt_succ hfuel))

/-- What the victim loop keeps, against the state `m₀` it starts from: the graph stays well
formed and only loses edges, it keeps every edge between transactions not aborted, and a
transaction changes only by being aborted, when it reaches a cycle of the starting graph. -/
structure Pruned (m₀ m : LockManager R) : Prop where
  graph_ok : m.graph.GraphOk
  sub : ∀ x y, y ∈ m.graph.waitsFor x → y ∈ m₀.graph.waitsFor x
  keep : ∀ x y, y ∈ m₀.graph.waitsFor x → (m.txns x).state ≠ .aborted →
    (m.txns y).state ≠ .aborted → y ∈ m.graph.waitsFor x
  txns : ∀ t, m.txns t = m₀.txns t ∨
    (m.txns t = { m₀.txns t with state := .aborted } ∧ ReachesCycle m₀.graph.waitsFor t)

theorem pruned_refl (h : m.graph.GraphOk) : Pruned m m :=
  ⟨h, fun _ _ => id, fun _ _ h _ _ => h, fun _ => .inl rfl⟩

/-- One victim: `HasCycle` names a transaction that reaches a cycle, and the round aborts it and
removes its edges. -/
theorem Pruned.step {m₀ : LockManager R} (h : Pruned m₀ m) {v : Int} {g : WaitsForGraph}
    (hc : m.graph.hasCycle = some (v, g)) :
    Pruned m₀ { m.abortTxn v with graph := g.removeTxn v } := by
  obtain ⟨hcyc, rfl⟩ := hasCycle_some hc
  have hmem := fun x y => mem_removeTxn (g := m.graph) (x := x) (y := y) (v := v) (h.graph_ok.nodup x)
  refine ⟨h.graph_ok.removeTxn v, fun x y hy => h.sub x y ((hmem x y).mp hy).2.2,
    fun x y hy hx hy' => ?_, fun t => ?_⟩
  · have hxv : x ≠ v := fun e => hx (by simp [abortTxn, e])
    have hyv : y ≠ v := fun e => hy' (by simp [abortTxn, e])
    simp only [abortTxn, setTxn, Function.update_noteq hxv, Function.update_noteq hyv] at hx hy'
    exact (hmem x y).mpr ⟨hxv, hyv, h.keep x y hy hx hy'⟩
  · by_cases e : t = v
    · subst e
      have hcyc₀ := hcyc.mono h.sub
      simp only [abortTxn, setTxn, Function.update_same]
      rcases h.txns t with h₀ | ⟨h₀, -⟩ <;> exact .inr ⟨by rw [h₀], hcyc₀⟩
    · simpa [abortTxn, setTxn, Function.update_noteq e] using h.txns t

theorem Pruned.abortVictims {m₀ : LockManager R} (h : Pruned m₀ m) (fuel : Nat) :
    Pruned m₀ (abortVictims fuel m) := by
  induction fuel generalizing m with
  | zero => exact h
  | succ fuel ih =>
    unfold LockManager.abortVictims
    split
    · exact h
    · rename_i hc
      exact ih (h.step hc)

/-! ## The round -/

/-- What one round of the detector does with the graph `W` it builds: the rest of the state stays
as it was; `HasCycle` returns false at the end; a transaction changes only by being aborted, and
only one that reaches a cycle of `W`; and `W` has no cycle through transactions left unaborted. -/
structure RoundOk (m : LockManager R) : Prop where
  frame : m.runCycleDetection =
    { m with graph := m.runCycleDetection.graph, txns := m.runCycleDetection.txns }
  stops : m.runCycleDetection.graph.hasCycle = none
  victims : ∀ t, m.runCycleDetection.txns t = m.txns t ∨
    (m.runCycleDetection.txns t = { m.txns t with state := .aborted } ∧
      ReachesCycle m.buildGraph.waitsFor t)
  acyclic : ∀ t, ¬TransGen (fun x y => y ∈ m.buildGraph.waitsFor x ∧
    (m.runCycleDetection.txns x).state ≠ .aborted ∧ (m.runCycleDetection.txns y).state ≠ .aborted) t t

theorem roundOk_of_graphOk (h : m.graph.GraphOk) : m.RoundOk := by
  have hW : ({ m with graph := m.buildGraph } : LockManager R).graph.GraphOk := graphOk_buildGraph h
  have hpruned := (pruned_refl hW).abortVictims (m.buildGraph.edgeCount + 1)
  have hstops : m.runCycleDetection.graph.hasCycle = none := abortVictims_stops hW (Nat.lt_succ_self _)
  refine ⟨abortVictims_eq _ _, hstops, hpruned.txns, fun t hcyc => ?_⟩
  exact hasCycle_none hpruned.graph_ok.target_mem hpruned.graph_ok.source_mem hstops t
    (hcyc.mono fun x y hxy => hpruned.keep x y hxy.1 hxy.2.1 hxy.2.2)

theorem graphOk_runCycleDetection (h : m.graph.GraphOk) : m.runCycleDetection.graph.GraphOk :=
  ((pruned_refl (m := { m with graph := m.buildGraph }) (graphOk_buildGraph h)).abortVictims _).graph_ok

/-! ## Reachable states -/

/-- What every reachable state keeps for the detector: the keys of the two maps cover every
non-empty queue, as `GetLRQueuePtr` adds the key of every queue it hands out, and the graph is
well formed. -/
structure Tracked (m : LockManager R) : Prop where
  table_keyed : ∀ oid, (m.tableLockMap oid).requestQueue ≠ [] → oid ∈ m.tableOids
  row_keyed : ∀ rid, (m.rowLockMap rid).requestQueue ≠ [] → rid ∈ m.rowRids
  graph_ok : m.graph.GraphOk

theorem Tracked.setTxn (h : m.Tracked) (t : Int) (txn : Transaction R) : (m.setTxn t txn).Tracked :=
  ⟨h.table_keyed, h.row_keyed, h.graph_ok⟩

theorem Tracked.setWaiting (h : m.Tracked) (t : Int) (w : Option (Waiting R)) :
    (m.setWaiting t w).Tracked :=
  ⟨h.table_keyed, h.row_keyed, h.graph_ok⟩

theorem Tracked.runCycleDetection (h : m.Tracked) : m.runCycleDetection.Tracked := by
  rw [(roundOk_of_graphOk h.graph_ok).frame]
  exact ⟨h.table_keyed, h.row_keyed, graphOk_runCycleDetection h.graph_ok⟩

/-- The edges of the graph a round builds from a tracked state: the `Blocks` of every queue, with
no condition on keys. -/
theorem Tracked.mem_buildGraph (h : m.Tracked) {t u : Int} :
    u ∈ m.buildGraph.waitsFor t ↔ u ∈ m.graph.waitsFor t ∨
      (∃ oid, Blocks (m.tableLockMap oid) t u) ∨ ∃ rid, Blocks (m.rowLockMap rid) u t := by
  rw [LockManager.mem_buildGraph]
  refine or_congr Iff.rfl (or_congr ⟨fun ⟨oid, _, hb⟩ => ⟨oid, hb⟩, fun ⟨oid, hb⟩ =>
    ⟨oid, h.table_keyed oid hb.ne_nil, hb⟩⟩ ⟨fun ⟨rid, _, hb⟩ => ⟨rid, hb⟩, fun ⟨rid, hb⟩ =>
    ⟨rid, h.row_keyed rid hb.ne_nil, hb⟩⟩)

/-! ## The waits-for graph of the spec -/

/-- Modelled from the spec: the waits-for graph, with an edge from `t` to `u` when some table or
row queue holds an ungranted request of `t` and a granted request of `u` whose modes
`GrantCompatiable` rejects. -/
def WaitsForEdge (m : LockManager R) (t u : Int) : Prop := ∃ k, Blocks (m.queue k) t u

/-- In a tracked state, no cycle of the spec's graph passes through `v` when the queues under the
keys lead from `v` into a set `S` and never out of it. -/
theorem Tracked.not_transGen_waitsForEdge (h : m.Tracked) (S : List Int) {v : Int} (hvS : v ∉ S)
    (htable : ∀ oid ∈ m.tableOids, ∀ t ∈ v :: S, ∀ u ∈ (m.tableLockMap oid).requestQueue.map
      (·.txnId), Blocks (m.tableLockMap oid) t u → u ∈ S)
    (hrow : ∀ rid ∈ m.rowRids, ∀ t ∈ v :: S, ∀ u ∈ (m.rowLockMap rid).requestQueue.map
      (·.txnId), Blocks (m.rowLockMap rid) t u → u ∈ S) :
    ¬TransGen (WaitsForEdge m) v v := by
  refine not_transGen_of_closed S hvS fun t ht u ⟨k, hb⟩ => ?_
  cases k with
  | table oid => exact htable oid (h.table_keyed oid hb.ne_nil) t ht u hb.mem_txnIds hb
  | row rid => exact hrow rid (h.row_keyed rid hb.ne_nil) t ht u hb.mem_txnIds hb

theorem tracked_new (isolationLevel : Int → IsolationLevel) :
    (new isolationLevel : LockManager R).Tracked :=
  ⟨fun _ h => absurd rfl h, fun _ h => absurd rfl h, graphOk_empty⟩

theorem Tracked.setTableQueue (h : m.Tracked) (oid : Nat) (q : LockRequestQueue) :
    (m.setTableQueue oid q).Tracked where
  table_keyed oid' hq := by
    by_cases e : oid' = oid
    · exact e ▸ List.mem_insert_self _ _
    · exact List.mem_insert_of_mem
        (h.table_keyed oid' (by simpa [LockManager.setTableQueue, Function.update_noteq e] using hq))
  row_keyed := h.row_keyed
  graph_ok := h.graph_ok

variable [DecidableEq R]

theorem Tracked.setRowQueue (h : m.Tracked) (rid : R) (q : LockRequestQueue) :
    (m.setRowQueue rid q).Tracked where
  table_keyed := h.table_keyed
  row_keyed rid' hq := by
    by_cases e : rid' = rid
    · exact e ▸ List.mem_insert_self _ _
    · exact List.mem_insert_of_mem
        (h.row_keyed rid' (by simpa [LockManager.setRowQueue, Function.update_noteq e] using hq))
  graph_ok := h.graph_ok

theorem Tracked.setQueue (h : m.Tracked) (k : Resource R) (q : LockRequestQueue) :
    (m.setQueue k q).Tracked := by
  cases k with
  | table oid => exact h.setTableQueue oid q
  | row rid => exact h.setRowQueue rid q

theorem Tracked.call {mayAct : Transaction R → Prop} (h : m.Tracked) (hc : Call mayAct m m') :
    m'.Tracked := by
  cases hc with
  | lockTable _ _ _ _ _ hl =>
    obtain ⟨m₁, hu, rfl⟩ := lockTable_ok hl
    obtain ⟨_, _, _, rfl⟩ := updateLock_ok hu
    exact ((h.setTableQueue _ _).setTxn _ _).setWaiting _ _
  | lockRow _ _ _ _ _ _ hl =>
    rcases (lockRow_ok hl).2 with ⟨m₁, hu, rfl⟩ | ⟨m₁, hu, rfl, -⟩
    · obtain ⟨_, _, _, rfl⟩ := updateLockRow_ok hu
      exact ((h.setRowQueue _ _).setTxn _ _).setWaiting _ _
    · obtain ⟨_, _, _, rfl⟩ := updateLock_ok hu
      exact ((h.setTableQueue _ _).setTxn _ _).setWaiting _ _
  | grant t w _ _ =>
    cases hr : ((m.queue w.resource).grantLock t w.lockMode).1
    · rw [grant_of_false hr]
      exact h.setQueue _ _
    · rw [grant_of_true hr]
      exact ((h.setQueue _ _).setTxn _ _).setWaiting _ _
  | unlockTable _ _ _ _ hu =>
    obtain ⟨-, -, _, _, _, rfl⟩ := unlockTable_ok hu
    exact (h.setTableQueue _ _).setTxn _ _
  | unlockRow _ _ _ _ _ hu =>
    obtain ⟨_, _, _, rfl⟩ := unlockRow_ok hu
    exact (h.setRowQueue _ _).setTxn _ _
  | lockTableAbort | lockRowAbort | unlockTableAbort | unlockRowAbort => exact h.setTxn _ _

theorem Tracked.step (h : m.Tracked) (hs : Step m m') : m'.Tracked := by
  cases hs with
  | call hc => exact h.call hc
  | abortWaiting t w _ _ =>
    unfold LockManager.abortWaiting
    dsimp only
    split_ifs
    · exact (h.setQueue _ _).setWaiting _ _
    · exact h.setQueue _ _
  | runCycleDetection => exact h.runCycleDetection

theorem Tracked.of_reachable {isolationLevel : Int → IsolationLevel}
    (h : Reachable isolationLevel m) : m.Tracked := by
  induction h with
  | refl => exact tracked_new isolationLevel
  | tail _ hs ih => exact ih.step hs

/-- From every reachable state, a round of the detector works on a graph that holds the `Blocks`
of every table queue, and whose other edges come from earlier rounds or join the two transactions
of a row queue's `Blocks`; `HasCycle` returns false when the round ends; the round only aborts
transactions, each of which reaches a cycle of that graph; and no cycle of it is left among the
transactions not aborted. -/
theorem runCycleDetection_roundOk {isolationLevel : Int → IsolationLevel}
    (h : Reachable isolationLevel m) :
    (∀ t u, (∃ oid, Blocks (m.tableLockMap oid) t u) → u ∈ m.buildGraph.waitsFor t) ∧
    (∀ t u, u ∈ m.buildGraph.waitsFor t → u ∈ m.graph.waitsFor t ∨
      (∃ oid, Blocks (m.tableLockMap oid) t u) ∨
      ∃ rid, Blocks (m.rowLockMap rid) t u ∨ Blocks (m.rowLockMap rid) u t) ∧
    m.RoundOk := by
  have hmem := fun {t u : Int} => (Tracked.of_reachable h).mem_buildGraph (t := t) (u := u)
  refine ⟨fun _ _ ht => hmem.mpr (.inr (.inl ht)), fun _ _ hu => ?_,
    roundOk_of_graphOk (Tracked.of_reachable h).graph_ok⟩
  rcases hmem.mp hu with hu | hu | ⟨rid, hb⟩
  · exact .inl hu
  · exact .inr (.inl hu)
  · exact .inr (.inr ⟨rid, .inr hb⟩)

/-- Three runs where a round departs from the spec's graph.  First, transactions 9, 2 and 3 lock
tables 0, 1 and 2 in X; then 1 waits for 9 on table 0, 9 and 3 for 2 on table 1, and 2 for 3 on
table 2.  The search from 1 meets the cycle of 2 and 3 with 9 on its stack, and the round aborts
9, which lies on no cycle.  Second, at `READ_COMMITTED`, 2 holds X on table 0 and 1 on table 1;
1 waits for 2 on table 0, and a round records the edge; 2 unlocks table 0 and waits for S on
table 1.  Only 2 waits for 1 now, yet the edge of the first round closes a cycle, and the next
round aborts 2.  Third, 6 holds row 0 of table 4 in X and 5 holds table 3 in X; 6 waits for table
3 and 5 for the row: a deadlock, but the row edge is reversed, both edges go from 6 to 5, and the
round aborts neither. -/
theorem runCycleDetection_abortsOffCycle_keepsCycle :
    (∃ m : LockManager Nat, Reachable (fun _ => .repeatableRead) m ∧
      (m.txns 9).state ≠ .aborted ∧ (m.runCycleDetection.txns 9).state = .aborted ∧
      ¬TransGen (WaitsForEdge m) 9 9) ∧
    (∃ m : LockManager Nat, Reachable (fun _ => .readCommitted) m ∧
      (m.txns 2).state ≠ .aborted ∧ (m.runCycleDetection.txns 2).state = .aborted ∧
      ¬TransGen (WaitsForEdge m) 2 2) ∧
    (∃ m : LockManager Nat, Reachable (fun _ => .repeatableRead) m ∧
      TransGen (fun x y => WaitsForEdge m x y ∧ (m.runCycleDetection.txns x).state ≠ .aborted ∧
        (m.runCycleDetection.txns y).state ≠ .aborted) 5 5) := by
  have o₁ : Reachable (fun _ => .repeatableRead) (_ : LockManager Nat) :=
    .single (.call (.lockTable 9 .exclusive 0 (by rfl) trivial (by rfl)))
  have o₂ := o₁.tail (.call (.grant 9 (.table 0 .exclusive) (by rfl) trivial))
  have o₃ := o₂.tail (.call (.lockTable 2 .exclusive 1 (by rfl) trivial (by rfl)))
  have o₄ := o₃.tail (.call (.grant 2 (.table 1 .exclusive) (by rfl) trivial))
  have o₅ := o₄.tail (.call (.lockTable 3 .exclusive 2 (by rfl) trivial (by rfl)))
  have o₆ := o₅.tail (.call (.grant 3 (.table 2 .exclusive) (by rfl) trivial))
  have o₇ := o₆.tail (.call (.lockTable 1 .exclusive 0 (by rfl) trivial (by rfl)))
  have o₈ := o₇.tail (.call (.lockTable 9 .exclusive 1 (by rfl) trivial (by rfl)))
  have o₉ := o₈.tail (.call (.lockTable 3 .exclusive 1 (by rfl) trivial (by rfl)))
  have offCycle := o₉.tail (.call (.lockTable 2 .exclusive 2 (by rfl) trivial (by rfl)))
  have s₁ : Reachable (fun _ => .readCommitted) (_ : LockManager Nat) :=
    .single (.call (.lockTable 2 .exclusive 0 (by rfl) trivial (by rfl)))
  have s₂ := s₁.tail (.call (.grant 2 (.table 0 .exclusive) (by rfl) trivial))
  have s₃ := s₂.tail (.call (.lockTable 1 .exclusive 1 (by rfl) trivial (by rfl)))
  have s₄ := s₃.tail (.call (.grant 1 (.table 1 .exclusive) (by rfl) trivial))
  have s₅ := s₄.tail (.call (.lockTable 1 .exclusive 0 (by rfl) trivial (by rfl)))
  have s₆ := s₅.tail .runCycleDetection
  have s₇ := s₆.tail (.call (.unlockTable 2 0 (by rfl) trivial (by rfl)))
  have stale := s₇.tail (.call (.lockTable 2 .shared 1 (by rfl) trivial (by rfl)))
  have r₁ : Reachable (fun _ => .repeatableRead) (_ : LockManager Nat) :=
    .single (.call (.lockTable 6 .intentionExclusive 4 (by rfl) trivial (by rfl)))
  have r₂ := r₁.tail (.call (.grant 6 (.table 4 .intentionExclusive) (by rfl) trivial))
  have r₃ := r₂.tail (.call (.lockRow 6 .exclusive 4 0 (by rfl) trivial (by rfl)))
  have r₄ := r₃.tail (.call (.grant 6 (.row 4 0 .exclusive) (by rfl) trivial))
  have r₅ := r₄.tail (.call (.lockTable 5 .exclusive 3 (by rfl) trivial (by rfl)))
  have r₆ := r₅.tail (.call (.grant 5 (.table 3 .exclusive) (by rfl) trivial))
  have r₇ := r₆.tail (.call (.lockTable 6 .exclusive 3 (by rfl) trivial (by rfl)))
  have r₈ := r₇.tail (.call (.lockTable 5 .intentionExclusive 4 (by rfl) trivial (by rfl)))
  have r₉ := r₈.tail (.call (.grant 5 (.table 4 .intentionExclusive) (by rfl) trivial))
  have reversed := r₉.tail (.call (.lockRow 5 .exclusive 4 0 (by rfl) trivial (by rfl)))
  refine ⟨⟨_, offCycle, by decide, by decide,
      (Tracked.of_reachable offCycle).not_transGen_waitsForEdge [2, 3] (by decide) (by decide)
        (by decide)⟩,
    ⟨_, stale, by decide, by decide,
      (Tracked.of_reachable stale).not_transGen_waitsForEdge [1] (by decide) (by decide)
        (by decide)⟩,
    ⟨_, reversed, TransGen.tail (b := 6) (.single ⟨⟨.row 0, ?_⟩, ?_, ?_⟩)
      ⟨⟨.table 3, ?_⟩, ?_, ?_⟩⟩⟩ <;> decide

end LockManager

end Bustub
