import Bustub.Concurrency.DetectorRound

/-!
# `HasCycle` over the calls that build the graph

`AddEdge`, `RemoveEdge` and `HasCycle` are public, and a graph is whatever a sequence of them
leaves (`WaitsForGraph.ofCalls`).  `HasCycle` unmarks the transaction it names but leaves its
edges; `RunCycleDetection` removes them, a bare sequence of calls need not.

*What holds.*  A transaction `HasCycle` names reaches a cycle, and over graphs built by
`AddEdge` and `RemoveEdge` alone `HasCycle` returns true exactly when the graph has a cycle
(`hasCycle_reports_cycles`): every edge then leaves a marked transaction, as the search needs
(`GraphOk.removeEdge`).

*What does not.*  The transaction named need not lie on a cycle, and after earlier `HasCycle`
calls a cycle whose transactions are all unmarked is missed
(`hasCycle_offCycle_or_missed`).
-/

namespace Bustub

open Relation

/-- A call of the waits-for graph's interface. -/
inductive GraphCall
  | addEdge (t1 t2 : Int)
  | removeEdge (t1 t2 : Int)
  | hasCycle
  deriving DecidableEq, Repr

namespace GraphCall

/-- The graph after a call; `HasCycle` sets the mark of the transaction it names to 0. -/
def apply (g : WaitsForGraph) : GraphCall → WaitsForGraph
  | addEdge t1 t2 => g.addEdge t1 t2
  | removeEdge t1 t2 => g.removeEdge t1 t2
  | hasCycle =>
    match g.hasCycle with
    | some (_, g') => g'
    | none => g

end GraphCall

namespace WaitsForGraph

/-- The graph a sequence of calls leaves, from the empty one. -/
def ofCalls (calls : List GraphCall) : WaitsForGraph := calls.foldl GraphCall.apply empty

variable {g : WaitsForGraph}

theorem GraphOk.removeEdge (h : g.GraphOk) (t1 t2 : Int) : (g.removeEdge t1 t2).GraphOk where
  target_mem x y hy := by
    by_cases e : x = t1
    · subst e
      exact h.target_mem x y (List.mem_of_mem_erase (by simpa [WaitsForGraph.removeEdge] using hy))
    · exact h.target_mem x y (by simpa [WaitsForGraph.removeEdge, e] using hy)
  source_mem x hx := by
    by_cases e : x = t1
    · subst e
      refine h.source_mem x fun h0 => hx ?_
      simp [WaitsForGraph.removeEdge, h0]
    · exact h.source_mem x (by simpa [WaitsForGraph.removeEdge, e] using hx)
  nodup x := by
    by_cases e : x = t1
    · subst e
      simpa [WaitsForGraph.removeEdge] using (h.nodup x).erase t2
    · simpa [WaitsForGraph.removeEdge, e] using h.nodup x

/-- Graphs built by `AddEdge` and `RemoveEdge` alone are what the search needs. -/
theorem graphOk_ofCalls :
    ∀ {calls : List GraphCall} {g : WaitsForGraph}, g.GraphOk →
      (∀ c ∈ calls, c ≠ .hasCycle) → (calls.foldl GraphCall.apply g).GraphOk
  | [], _, hg, _ => hg
  | .addEdge t1 t2 :: calls, _, hg, hcalls =>
    @graphOk_ofCalls calls _ (hg.addEdge t1 t2) fun c hc => hcalls c (List.mem_cons_of_mem _ hc)
  | .removeEdge t1 t2 :: calls, _, hg, hcalls =>
    @graphOk_ofCalls calls _ (hg.removeEdge t1 t2) fun c hc =>
      hcalls c (List.mem_cons_of_mem _ hc)
  | .hasCycle :: _, _, _, hcalls => absurd rfl (hcalls _ (List.mem_cons_self _ _))

/-- A transaction `HasCycle` names reaches a cycle; over graphs built by `AddEdge` and
`RemoveEdge` alone, `HasCycle` returns true iff `waits_for_` has a directed cycle. -/
theorem hasCycle_reports_cycles (calls : List GraphCall) :
    (∀ v g', (ofCalls calls).hasCycle = some (v, g') → ReachesCycle (ofCalls calls).waitsFor v) ∧
      ((∀ c ∈ calls, c ≠ .hasCycle) →
        ((ofCalls calls).hasCycle.isSome ↔ ∃ x, OnCycle (ofCalls calls).waitsFor x)) := by
  refine ⟨fun v g' h => (hasCycle_some h).1, fun hcalls => ⟨fun hsome => ?_, fun ⟨x, hx⟩ => ?_⟩⟩
  · obtain ⟨⟨v, g'⟩, h⟩ := Option.isSome_iff_exists.mp hsome
    obtain ⟨y, -, hy⟩ := (hasCycle_some h).1
    exact ⟨y, hy⟩
  · have hok := graphOk_ofCalls graphOk_empty hcalls
    by_contra hnone
    exact hasCycle_none hok.target_mem hok.source_mem (by simpa using hnone) x hx

/-- The spec's deadlock, `AddEdge(5, 6)` and `AddEdge(6, 5)`: no `HasCycle` call, and a cycle. -/
theorem hasCycle_reports_cycles_deadlock :
    (∀ c ∈ [GraphCall.addEdge 5 6, .addEdge 6 5], c ≠ .hasCycle) ∧
      ((ofCalls [.addEdge 5 6, .addEdge 6 5]).hasCycle.isSome ↔
        ∃ x, OnCycle (ofCalls [.addEdge 5 6, .addEdge 6 5]).waitsFor x) :=
  ⟨by decide, (hasCycle_reports_cycles _).2 (by decide)⟩

/-- Two sequences of calls.  After `AddEdge(1, 9)`, `AddEdge(9, 2)`, `AddEdge(2, 3)`,
`AddEdge(3, 2)`, `HasCycle` names 9, which lies on no cycle.  After `AddEdge(2, 3)`,
`AddEdge(3, 2)`, `HasCycle` (naming 3), `AddEdge(1, 2)`, `AddEdge(2, 1)`, `HasCycle` (naming 2),
`RemoveEdge(1, 2)`, `RemoveEdge(2, 1)`, `HasCycle` returns false, though 2 and 3 still wait for
each other. -/
theorem hasCycle_offCycle_or_missed :
    (∃ g', (ofCalls [.addEdge 1 9, .addEdge 9 2, .addEdge 2 3, .addEdge 3 2]).hasCycle =
        some (9, g') ∧
      ¬OnCycle (ofCalls [.addEdge 1 9, .addEdge 9 2, .addEdge 2 3, .addEdge 3 2]).waitsFor 9) ∧
    ((ofCalls [.addEdge 2 3, .addEdge 3 2, .hasCycle, .addEdge 1 2, .addEdge 2 1, .hasCycle,
        .removeEdge 1 2, .removeEdge 2 1]).hasCycle = none ∧
      OnCycle (ofCalls [.addEdge 2 3, .addEdge 3 2, .hasCycle, .addEdge 1 2, .addEdge 2 1,
        .hasCycle, .removeEdge 1 2, .removeEdge 2 1]).waitsFor 2) :=
  ⟨⟨_, rfl, not_onCycle_of_closed [2, 3] (by decide) (by decide)⟩,
    rfl, TransGen.tail (b := 3) (.single (by show _ ∈ _; decide)) (by show _ ∈ _; decide)⟩

end WaitsForGraph

end Bustub
