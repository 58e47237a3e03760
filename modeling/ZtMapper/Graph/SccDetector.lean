/-
# `dsa::graph::SCCDetector`

The interface the engine calls and its two registered implementations.  Both
return the partition of the vertices into strongly connected components, hence
the same set of sets, whatever the iteration orders of the two runs.
-/
import ZtMapper.Graph.TarjanCorrect
import ZtMapper.Graph.KosarajuCorrect

open Scc Loop

/-- The registered implementations. -/
inductive SccDetector where
  | tarjan
  | kosaraju
  deriving DecidableEq, Repr

namespace SccDetector

/-- `det.find_sccs(g)`, with the iteration orders of `g` and of the transpose that
`Kosaraju` builds as arguments. -/
def findSccs (det : SccDetector) {g : DirectedGraph} (ord : g.Order)
    (ordT : (g.transpose ord).Order) (fuel : ℕ) : Option (List Component) :=
  match det with
  | .tarjan => Tarjan.findSccs ord fuel
  | .kosaraju => Kosaraju.findSccs ord ordT fuel

/-- **Both detectors terminate** with the partition into components, except that
`Tarjan` is undefined on graphs its timer cannot number. -/
theorem outcome_findSccs (det : SccDetector) {g : DirectedGraph} (ord : g.Order)
    (ordT : (g.transpose ord).Order) :
    Outcome (det = .tarjan ∧ 2 ^ 31 ≤ g.numVertices) (det.findSccs ord ordT) fun sccs =>
      IsSccPartition g.vertices g.Edge sccs ∧ (det = .tarjan → g.numVertices < 2 ^ 31) := by
  cases det with
  | tarjan =>
    rcases Tarjan.outcome_findSccs ord with ⟨sccs, hret, hpart, hsize⟩ | ⟨hbad, h⟩
    · exact Or.inl ⟨sccs, hret, hpart, fun _ => hsize⟩
    · exact Or.inr ⟨⟨rfl, hbad⟩, h⟩
  | kosaraju =>
    obtain ⟨sccs, hret, hpart⟩ := Kosaraju.returns_findSccs ord ordT
    exact Or.inl ⟨sccs, hret, hpart, fun h => absurd h (by decide)⟩

/-- Two partitions of one graph are the same set of sets. -/
theorem setOf_toFinset_eq {g : DirectedGraph} {sccs sccs' : List Component}
    (h : IsSccPartition g.vertices g.Edge sccs) (h' : IsSccPartition g.vertices g.Edge sccs') :
    {C : Finset Vertex | ∃ c ∈ sccs, c.toFinset = C}
      = {C : Finset Vertex | ∃ c ∈ sccs', c.toFinset = C} := by
  have hE : ∀ x y, x ∈ g.vertices → g.Edge x y → y ∈ g.vertices := fun _ _ _ he =>
    he.mem_vertices.2
  rw [h.setOf_toFinset hE, h'.setOf_toFinset hE]

end SccDetector

/-- **`Kosaraju::find_sccs` on the graph of any sequence of calls** terminates and
returns the partition into strongly connected components.  Where the timer of
`Tarjan::find_sccs` can number the vertices, that returns the same set of sets. -/
theorem Kosaraju.findSccs_agrees (ops : List DirectedGraph.Op)
    (ord : (DirectedGraph.build ops).Order)
    (ordT : ((DirectedGraph.build ops).transpose ord).Order) :
    ∃ sccs, Returns (Kosaraju.findSccs ord ordT) sccs ∧
      IsSccPartition (DirectedGraph.build ops).vertices (DirectedGraph.build ops).Edge sccs ∧
      ((DirectedGraph.build ops).numVertices < 2 ^ 31 →
        ∀ ord' : (DirectedGraph.build ops).Order,
          ∃ sccs', Returns (Tarjan.findSccs ord') sccs' ∧
            {C : Finset Vertex | ∃ c ∈ sccs, c.toFinset = C}
              = {C : Finset Vertex | ∃ c ∈ sccs', c.toFinset = C}) := by
  obtain ⟨sccs, hret, hpart⟩ := Kosaraju.returns_findSccs ord ordT
  refine ⟨sccs, hret, hpart, fun hsize ord' => ?_⟩
  obtain ⟨sccs', hret', hpart', -⟩ := (Tarjan.outcome_findSccs ord').returns (not_le.mpr hsize)
  exact ⟨sccs', hret', SccDetector.setOf_toFinset_eq hpart hpart'⟩

/-- A cycle of two vertices and an edge out of it. -/
theorem Kosaraju.findSccs_agrees_cycle :
    ∃ ordT : ((DirectedGraph.build [.addEdge 1 2, .addEdge 2 1, .addEdge 2 3]).transpose
        (DirectedGraph.Order.ofVertices _ [3, 1, 2] (by decide))).Order,
    ∃ sccs, Returns (Kosaraju.findSccs _ ordT) sccs ∧
      ∃ sccs', Returns (Tarjan.findSccs (DirectedGraph.Order.ofVertices
          (DirectedGraph.build [.addEdge 1 2, .addEdge 2 1, .addEdge 2 3]) [2, 1, 3]
          (by decide))) sccs' ∧
        {C : Finset Vertex | ∃ c ∈ sccs, c.toFinset = C}
          = {C : Finset Vertex | ∃ c ∈ sccs', c.toFinset = C} := by
  refine ⟨DirectedGraph.Order.ofVertices _ [1, 2, 3] (by decide), ?_⟩
  obtain ⟨sccs, hret, -, hagree⟩ := Kosaraju.findSccs_agrees _ _
    (DirectedGraph.Order.ofVertices ((DirectedGraph.build
      [.addEdge 1 2, .addEdge 2 1, .addEdge 2 3]).transpose
        (DirectedGraph.Order.ofVertices _ [3, 1, 2] (by decide))) [1, 2, 3] (by decide))
  exact ⟨sccs, hret, hagree (by decide) _⟩

/-- On `2^31` isolated vertices `Tarjan::find_sccs` overflows its timer, so there
is nothing for the components of `Kosaraju::find_sccs` to agree with. -/
theorem Kosaraju.findSccs_agrees_isolated :
    ¬ ∀ (ord : (DirectedGraph.build (DirectedGraph.isolated (2 ^ 31))).Order)
        (ordT : ((DirectedGraph.build (DirectedGraph.isolated (2 ^ 31))).transpose ord).Order)
        (ord' : (DirectedGraph.build (DirectedGraph.isolated (2 ^ 31))).Order),
      ∃ sccs, Returns (Kosaraju.findSccs ord ordT) sccs ∧
        ∃ sccs', Returns (Tarjan.findSccs ord') sccs' ∧
          {C : Finset Vertex | ∃ c ∈ sccs, c.toFinset = C}
            = {C : Finset Vertex | ∃ c ∈ sccs', c.toFinset = C} := by
  intro h
  obtain ⟨ord⟩ := (inferInstance :
    Nonempty (DirectedGraph.build (DirectedGraph.isolated (2 ^ 31))).Order)
  obtain ⟨ordT⟩ := (inferInstance :
    Nonempty ((DirectedGraph.build (DirectedGraph.isolated (2 ^ 31))).transpose ord).Order)
  obtain ⟨_, -, sccs', hret', -⟩ := h ord ordT ord
  have hlt := (Tarjan.returns_findSccs_iff ord).mp ⟨sccs', hret'⟩
  rw [DirectedGraph.numVertices_isolated (by norm_num)] at hlt
  exact absurd hlt (lt_irrefl _)
