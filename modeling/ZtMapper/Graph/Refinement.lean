/-
# `dsa::graph::DirectedGraph` refines a pair of sets

One graph at three levels.  `Members` has the two data members of the class and
nothing else, the counter a `size_t` that wraps around.  `DirectedGraph` carries
the class invariants.  `FinDigraph Vertex` is the pair `(V, E)`, on which a call
is a set operation.  A sequence of calls keeps the three in step.
-/
import ZtMapper.Graph.DirectedGraph
import ZtMapper.Lib.FinDigraph

open Unordered

namespace DirectedGraph

/-! ## The pair of sets -/

/-- What a call does to the pair of sets. -/
def specApply (d : FinDigraph Vertex) : Op → FinDigraph Vertex
  | .addVertex v => d.addVertex v
  | .addEdge u v => d.addEdge u v
  | .removeEdge u v => d.removeEdge u v
  | .clear => FinDigraph.empty

/-- The pair of sets after a sequence of calls. -/
def spec (ops : List Op) : FinDigraph Vertex := ops.foldl specApply FinDigraph.empty

/-- The vertices and edges that the adjacency map stores. -/
def toFinDigraph (g : DirectedGraph) : FinDigraph Vertex where
  verts := g.vertices
  edges := g.adj.edges
  closed := fun _ he => Edge.mem_vertices (Adjacency.mem_edges.mp he)

/-- The edges of the abstract graph. -/
theorem mem_edges_toFinDigraph {g : DirectedGraph} {u v : Vertex} :
    (u, v) ∈ g.toFinDigraph.edges ↔ g.Edge u v :=
  Adjacency.mem_edges

/-- Equal sets, equal graphs. -/
theorem toFinDigraph_injective : Function.Injective toFinDigraph := by
  intro g g' h
  apply ext_edge (congrArg FinDigraph.verts h)
  intro a b
  rw [← mem_edges_toFinDigraph, ← mem_edges_toFinDigraph, h]

/-! ## A call, and a sequence of calls -/

/-- `add_vertex` refines adding a vertex. -/
theorem toFinDigraph_addVertex (g : DirectedGraph) (v : Vertex) :
    (g.addVertex v).toFinDigraph = g.toFinDigraph.addVertex v :=
  FinDigraph.ext (vertices_addVertex g v) (Adjacency.edges_tryEmplace g.adj v)

/-- `add_edge` refines adding an edge. -/
theorem toFinDigraph_addEdge (g : DirectedGraph) (u v : Vertex) :
    (g.addEdge u v).toFinDigraph = g.toFinDigraph.addEdge u v := by
  apply FinDigraph.ext (vertices_addEdge g u v)
  ext ⟨a, b⟩
  rw [mem_edges_toFinDigraph, edge_addEdge, FinDigraph.addEdge, Finset.mem_insert,
    mem_edges_toFinDigraph, Prod.mk.injEq]

/-- `remove_edge` refines removing an edge. -/
theorem toFinDigraph_removeEdge (g : DirectedGraph) (u v : Vertex) :
    (g.removeEdge u v).toFinDigraph = g.toFinDigraph.removeEdge u v := by
  unfold removeEdge
  split_ifs with h
  · apply FinDigraph.ext
    · -- `u` has a neighbour, so it is a key already
      exact (Adjacency.keys_store g.adj u _).trans
        (Finset.insert_eq_of_mem (Adjacency.mem_keys_of_mem_neighbors h))
    · exact Adjacency.edges_store_erase g.adj u v
  · have he : (u, v) ∉ g.toFinDigraph.edges := fun he => h (mem_edges_toFinDigraph.mp he)
    exact FinDigraph.ext rfl (Finset.erase_eq_of_notMem he).symm

/-- One call does to the stored sets what it does to the pair. -/
theorem toFinDigraph_apply (g : DirectedGraph) (op : Op) :
    (g.apply op).toFinDigraph = specApply g.toFinDigraph op := by
  cases op with
  | addVertex v => exact toFinDigraph_addVertex g v
  | addEdge u v => exact toFinDigraph_addEdge g u v
  | removeEdge u v => exact toFinDigraph_removeEdge g u v
  | clear => rfl

/-- **A sequence of calls** leaves the stored sets equal to the pair. -/
theorem toFinDigraph_build (ops : List Op) : (build ops).toFinDigraph = spec ops := by
  rw [build, ← List.foldl_hom toFinDigraph fun g op => (toFinDigraph_apply g op).symm]
  rfl

/-! ## What the queries report -/

/-- The queries on `g` report the pair `d`, each element of a listing once. -/
structure Represents (g : DirectedGraph) (d : FinDigraph Vertex) : Prop where
  hasVertex : ∀ v, g.hasVertex v = decide (v ∈ d.verts)
  hasEdge : ∀ u v, g.hasEdge u v = decide ((u, v) ∈ d.edges)
  vertices : ∀ ord : g.Order, Enumerates ord.vertices d.verts
  neighbors : ∀ (ord : g.Order) (v : Vertex), Enumerates (ord.neighbors v) (d.neighbors v)
  numVertices : g.numVertices = d.verts.card
  numEdges : g.numEdges = d.edges.card

/-- A graph represents its abstraction. -/
theorem represents_toFinDigraph (g : DirectedGraph) : g.Represents g.toFinDigraph where
  hasVertex := fun _ => rfl
  hasEdge := by
    intro u v
    rw [hasEdge, decide_eq_decide, mem_edges_toFinDigraph, Edge]
  vertices := fun ord => ord.vertices_spec
  neighbors := by
    intro ord v
    have hnbrs : g.toFinDigraph.neighbors v = g.neighbors v := by
      ext w
      rw [FinDigraph.mem_neighbors]
      exact mem_edges_toFinDigraph
    rw [hnbrs]
    exact ord.neighbors_spec v
  numVertices := rfl
  numEdges := g.counted

/-- The decrement of `remove_edge` meets a positive counter. -/
theorem numEdges_removeEdge_succ {g : DirectedGraph} {u v : Vertex} (h : g.hasEdge u v = true) :
    (g.removeEdge u v).numEdges + 1 = g.numEdges := by
  rw [hasEdge, decide_eq_true_iff] at h
  have he : (u, v) ∈ g.toFinDigraph.edges := mem_edges_toFinDigraph.mpr h
  rw [(represents_toFinDigraph _).numEdges, (represents_toFinDigraph g).numEdges,
    toFinDigraph_removeEdge]
  exact Finset.card_erase_add_one he

/-! ## The transpose -/

/-- `transpose` refines reversing all edges. -/
theorem toFinDigraph_transpose (g : DirectedGraph) (ord : g.Order) :
    (g.transpose ord).toFinDigraph = g.toFinDigraph.reverse := by
  apply FinDigraph.ext (vertices_transpose g ord)
  ext ⟨a, b⟩
  rw [mem_edges_toFinDigraph, edge_transpose, FinDigraph.mem_edges_reverse, mem_edges_toFinDigraph]

/-- The transpose has as many edges. -/
theorem numEdges_transpose (g : DirectedGraph) (ord : g.Order) :
    (g.transpose ord).numEdges = g.numEdges := by
  rw [(represents_toFinDigraph _).numEdges, (represents_toFinDigraph g).numEdges,
    toFinDigraph_transpose, FinDigraph.card_edges_reverse]

/-- Transposing twice gives the graph back. -/
theorem transpose_transpose (g : DirectedGraph) (ord : g.Order) (ord' : (g.transpose ord).Order) :
    (g.transpose ord).transpose ord' = g := by
  apply toFinDigraph_injective
  rw [toFinDigraph_transpose, toFinDigraph_transpose, FinDigraph.reverse_reverse]

/-- The calls that `transpose()` makes on `gt`. -/
def transposeCalls (g : DirectedGraph) (ord : g.Order) : List Op :=
  ord.vertices.flatMap fun u => .addVertex u :: (ord.neighbors u).map fun v => .addEdge v u

/-- The transpose is built by calls of the interface. -/
theorem transpose_eq_build (g : DirectedGraph) (ord : g.Order) :
    g.transpose ord = build (g.transposeCalls ord) := by
  rw [build, transposeCalls, List.foldl_flatMap, transpose]
  congr 1
  funext gt u
  rw [transposeRow, List.foldl_cons, List.foldl_map]
  rfl

/-! ## The data members -/

/-- `adj_` and `edge_count_`, with no invariant. -/
structure Members where
  adj : Adjacency
  edgeCount : UInt64

namespace Members

/-- The default member initialisers. -/
def empty : Members := ⟨∅, 0⟩

def addVertex (m : Members) (v : Vertex) : Members := { m with adj := m.adj.tryEmplace v }

def addEdge (m : Members) (u v : Vertex) : Members :=
  let m := (m.addVertex u).addVertex v
  let row := m.adj.neighbors u
  { adj := m.adj.store u (insert v row)
    edgeCount := if v ∈ row then m.edgeCount else m.edgeCount + 1 }

def removeEdge (m : Members) (u v : Vertex) : Members :=
  match m.adj.lookup u with
  | none => m
  | some row =>
    if v ∈ row then { adj := m.adj.store u (row.erase v), edgeCount := m.edgeCount - 1 } else m

def apply (m : Members) : Op → Members
  | .addVertex v => m.addVertex v
  | .addEdge u v => m.addEdge u v
  | .removeEdge u v => m.removeEdge u v
  | .clear => empty

def build (ops : List Op) : Members := ops.foldl apply empty

/-- A vertex without a row loses no edge. -/
theorem removeEdge_eq (m : Members) (u v : Vertex) :
    m.removeEdge u v = if v ∈ m.adj.neighbors u then
      { adj := m.adj.store u ((m.adj.neighbors u).erase v), edgeCount := m.edgeCount - 1 }
    else m := by
  unfold removeEdge Adjacency.neighbors
  cases m.adj.lookup u with
  | none => exact (if_neg (Finset.notMem_empty v)).symm
  | some row => rfl

end Members

/-- The data members of a graph that keeps the class invariants. -/
def members (g : DirectedGraph) : Members := ⟨g.adj, UInt64.ofNat g.edgeCount⟩

/-- `add_edge` on the counter and the sets. -/
theorem members_addEdge (g : DirectedGraph) (u v : Vertex) :
    (g.addEdge u v).members = g.members.addEdge u v := by
  unfold members Members.addEdge addEdge insertEdge
  congr 1
  simp only [apply_ite UInt64.ofNat, UInt64.ofNat_add]
  rfl

/-- `remove_edge` on the counter and the sets. -/
theorem members_removeEdge (g : DirectedGraph) (u v : Vertex) :
    (g.removeEdge u v).members = g.members.removeEdge u v := by
  rw [Members.removeEdge_eq]
  by_cases h : v ∈ g.neighbors u
  · have hpos : 1 ≤ g.edgeCount := by
      rw [g.counted]
      exact Finset.card_pos.mpr ⟨(u, v), Adjacency.mem_edges.mpr h⟩
    rw [removeEdge, dif_pos h, members, members, UInt64.ofNat_sub hpos]
    exact (if_pos h).symm
  · rw [removeEdge, dif_neg h]
    exact (if_neg h).symm

/-- One call does to the data members what it does to the graph. -/
theorem members_apply (g : DirectedGraph) (op : Op) :
    (g.apply op).members = g.members.apply op := by
  cases op with
  | addVertex v => rfl
  | addEdge u v => exact members_addEdge g u v
  | removeEdge u v => exact members_removeEdge g u v
  | clear => rfl

/-- **A sequence of calls** leaves the members equal to those of the graph. -/
theorem members_build (ops : List Op) : (build ops).members = Members.build ops := by
  rw [build, ← List.foldl_hom members fun g op => (members_apply g op).symm]
  rfl

/-- The counter of the members is the number of edges.  A graph with `2 ^ 64`
edges does not fit in an address space. -/
theorem toNat_edgeCount_build {ops : List Op} (h : (spec ops).edges.card < 2 ^ 64) :
    (Members.build ops).edgeCount.toNat = (spec ops).edges.card := by
  rw [← members_build, members, (build ops).counted, ← toFinDigraph_build]
  rw [← toFinDigraph_build] at h
  exact UInt64.toNat_ofNat_of_lt' h

/-- A second insertion and a removal of an absent edge leave the counter alone. -/
example : (Members.build [.addEdge 1 2, .addEdge 1 2, .addEdge 1 3, .removeEdge 2 1,
    .removeEdge 1 2]).edgeCount = 1 := by decide

/-! ## The refinement -/

/-- `transpose()` leaves its counter where the counter of the graph is. -/
theorem edgeCount_transposeCalls (g : DirectedGraph) (ord : g.Order) :
    (Members.build (g.transposeCalls ord)).edgeCount = g.members.edgeCount := by
  rw [← members_build, ← transpose_eq_build]
  exact congrArg UInt64.ofNat (numEdges_transpose g ord)

/-- After any sequence of calls the queries report the pair of sets, whose edges
join vertices of it, and the `size_t` counter is the number of edges, which the
removal of a present edge decrements from a positive value.  The transpose
reports the reversed pair, with the same counter, and its transpose is the graph
again. -/
theorem build_refines_spec (ops : List Op) :
    (build ops).Represents (spec ops)
      ∧ Members.build ops = ⟨(build ops).adj, UInt64.ofNat (spec ops).edges.card⟩
      ∧ (∀ u v, (build ops).hasEdge u v = true →
          ((build ops).hasVertex u = true ∧ (build ops).hasVertex v = true)
            ∧ ((build ops).removeEdge u v).numEdges + 1 = (build ops).numEdges)
      ∧ ∀ ord : (build ops).Order,
          ((build ops).transpose ord).Represents (spec ops).reverse
            ∧ ((build ops).transpose ord).numEdges = (build ops).numEdges
            ∧ (Members.build ((build ops).transposeCalls ord)).edgeCount
                = (Members.build ops).edgeCount
            ∧ ∀ ord' : ((build ops).transpose ord).Order,
                ((build ops).transpose ord).transpose ord' = build ops := by
  have hspec := toFinDigraph_build ops
  refine ⟨?_, ?_, ?_, ?_⟩
  · rw [← hspec]
    exact represents_toFinDigraph (build ops)
  · rw [← members_build, ← hspec, members, (build ops).counted]
    rfl
  · intro u v huv
    refine ⟨?_, numEdges_removeEdge_succ huv⟩
    rw [hasEdge, decide_eq_true_iff] at huv
    rw [hasVertex, hasVertex, decide_eq_true_iff, decide_eq_true_iff]
    exact Edge.mem_vertices huv
  · intro ord
    refine ⟨?_, numEdges_transpose _ ord, ?_, transpose_transpose _ ord⟩
    · rw [← hspec, ← toFinDigraph_transpose _ ord]
      exact represents_toFinDigraph _
    · rw [edgeCount_transposeCalls, members_build]

end DirectedGraph
