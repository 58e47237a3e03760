/-
# `dsa::graph::DirectedGraph`

The adjacency map `adj_` and the edge counter of the source, with the two facts
every operation keeps as fields: an endpoint of an edge is a vertex, and the
counter is the number of edges.  Hash containers are unordered; a loop over the
graph takes the order it meets the elements in from an `Order`, which stands for
whatever order `vertices()` and `neighbors()` happen to enumerate.
-/
import ZtMapper.Lib.Unordered
import ZtMapper.Lib.Scc

open Unordered

/-- `uint32_t` vertex identifiers, IPv4 addresses in host byte order. -/
abbrev Vertex := UInt32

/-- The largest `int`. -/
def intMax : ℤ := 2147483647

/-- A component as a detector returns it, in the order of its `push_back` calls. -/
abbrev Component := List Vertex

/-- The type of `adj_`. -/
abbrev Adjacency := Map Vertex (Finset Vertex)

namespace Adjacency

/-- The set stored at `v`, empty when `v` is not a key. -/
def neighbors (adj : Adjacency) (v : Vertex) : Finset Vertex := (adj.lookup v).getD ∅

/-- The pairs `(u, v)` with `v` stored at `u`. -/
def edges (adj : Adjacency) : Finset (Vertex × Vertex) :=
  adj.keys.biUnion fun u => (adj.neighbors u).image fun v => (u, v)

/-- Only a key has neighbours. -/
theorem mem_keys_of_mem_neighbors {adj : Adjacency} {u v : Vertex} (h : v ∈ adj.neighbors u) :
    u ∈ adj.keys := by
  by_contra hu
  rw [Finmap.mem_keys, ← Finmap.lookup_eq_none] at hu
  rw [neighbors, hu] at h
  exact absurd h (Finset.notMem_empty v)

/-- The edge set lists each row under its key. -/
theorem mem_edges {adj : Adjacency} {u v : Vertex} :
    (u, v) ∈ adj.edges ↔ v ∈ adj.neighbors u := by
  simp only [edges, Finset.mem_biUnion, Finset.mem_image, Prod.mk.injEq]
  constructor
  · rintro ⟨u', _, v', hv', rfl, rfl⟩
    exact hv'
  · intro h
    exact ⟨u, mem_keys_of_mem_neighbors h, v, h, rfl, rfl⟩

/-- The map after the set stored at `u` has become `s`. -/
def store (adj : Adjacency) (u : Vertex) (s : Finset Vertex) : Adjacency := adj.insert u s

/-- Storing a row adds its key. -/
theorem keys_store (adj : Adjacency) (u : Vertex) (s : Finset Vertex) :
    (adj.store u s).keys = insert u adj.keys :=
  keys_insert adj u s

/-- Storing a row leaves the others. -/
theorem neighbors_store (adj : Adjacency) (u v : Vertex) (s : Finset Vertex) :
    (adj.store u s).neighbors v = if v = u then s else adj.neighbors v := by
  unfold neighbors store
  rw [lookup_insert_eq]
  split_ifs <;> rfl

/-- `try_emplace`: an empty set is stored only under a new key. -/
def tryEmplace (adj : Adjacency) (v : Vertex) : Adjacency :=
  if v ∈ adj then adj else adj.store v ∅

/-- `try_emplace` adds the key. -/
theorem keys_tryEmplace (adj : Adjacency) (v : Vertex) :
    (adj.tryEmplace v).keys = insert v adj.keys := by
  unfold tryEmplace
  split_ifs with h
  · exact (Finset.insert_eq_of_mem (Finmap.mem_keys.mpr h)).symm
  · exact keys_store adj v ∅

/-- `try_emplace` changes no row: a new one is empty. -/
@[simp] theorem neighbors_tryEmplace (adj : Adjacency) (u v : Vertex) :
    (adj.tryEmplace u).neighbors v = adj.neighbors v := by
  unfold tryEmplace
  split_ifs with h
  · rfl
  · rw [neighbors_store]
    split_ifs with hvu
    · rw [hvu, neighbors, Finmap.lookup_eq_none.mpr h, Option.getD_none]
    · rfl

/-- So it changes no edge. -/
@[simp] theorem edges_tryEmplace (adj : Adjacency) (v : Vertex) :
    (adj.tryEmplace v).edges = adj.edges := by
  ext ⟨a, b⟩
  rw [mem_edges, mem_edges, neighbors_tryEmplace]

/-- A vertex added to a row is one edge more. -/
theorem edges_store_insert (adj : Adjacency) (u v : Vertex) :
    (adj.store u (insert v (adj.neighbors u))).edges = insert (u, v) adj.edges := by
  ext ⟨a, b⟩
  rw [mem_edges, neighbors_store, Finset.mem_insert, mem_edges, Prod.mk.injEq]
  split_ifs with h
  · rw [h, Finset.mem_insert]
    tauto
  · tauto

/-- A vertex erased from a row is one edge less. -/
theorem edges_store_erase (adj : Adjacency) (u v : Vertex) :
    (adj.store u ((adj.neighbors u).erase v)).edges = adj.edges.erase (u, v) := by
  ext ⟨a, b⟩
  rw [mem_edges, neighbors_store, Finset.mem_erase, mem_edges, Ne, Prod.mk.injEq]
  split_ifs with h
  · rw [h, Finset.mem_erase]
    tauto
  · tauto

end Adjacency

/-- The graph class.  `closed` and `counted` are the class invariants. -/
structure DirectedGraph where
  adj : Adjacency
  edgeCount : ℕ
  closed : ∀ u v, v ∈ adj.neighbors u → v ∈ adj.keys
  counted : edgeCount = adj.edges.card

namespace DirectedGraph

/-- `adj_.find(v) != end ? it->second : empty_set_` -/
def neighbors (g : DirectedGraph) (v : Vertex) : Finset Vertex := g.adj.neighbors v

/-- The keys of `adj_`, of which `vertices()` returns a listing. -/
def vertices (g : DirectedGraph) : Finset Vertex := g.adj.keys

def hasVertex (g : DirectedGraph) (v : Vertex) : Bool := decide (v ∈ g.vertices)

def hasEdge (g : DirectedGraph) (u v : Vertex) : Bool := decide (v ∈ g.neighbors u)

def numVertices (g : DirectedGraph) : ℕ := g.vertices.card

def numEdges (g : DirectedGraph) : ℕ := g.edgeCount

/-- The edge relation. -/
def Edge (g : DirectedGraph) (u v : Vertex) : Prop := v ∈ g.neighbors u

/-- The default-constructed graph, which `clear()` returns to. -/
def empty : DirectedGraph where
  adj := ∅
  edgeCount := 0
  closed := fun _ v h => absurd h (Finset.notMem_empty v)
  counted := rfl

def addVertex (g : DirectedGraph) (v : Vertex) : DirectedGraph where
  adj := g.adj.tryEmplace v
  edgeCount := g.edgeCount
  closed := by
    intro a b hb
    rw [Adjacency.neighbors_tryEmplace] at hb
    rw [Adjacency.keys_tryEmplace]
    exact Finset.mem_insert_of_mem (g.closed a b hb)
  counted := by rw [Adjacency.edges_tryEmplace]; exact g.counted

/-- `adj_[u].insert(v)` for two vertices of the graph. -/
def insertEdge (g : DirectedGraph) (u v : Vertex) (hv : v ∈ g.vertices) : DirectedGraph where
  adj := g.adj.store u (insert v (g.adj.neighbors u))
  edgeCount := if v ∈ g.adj.neighbors u then g.edgeCount else g.edgeCount + 1
  closed := by
    intro a b hb
    rw [Adjacency.keys_store]
    apply Finset.mem_insert_of_mem
    rw [Adjacency.neighbors_store] at hb
    split_ifs at hb with ha
    · rcases Finset.mem_insert.mp hb with rfl | hb
      · exact hv
      · exact g.closed u b hb
    · exact g.closed a b hb
  counted := by
    rw [Adjacency.edges_store_insert]
    split_ifs with h
    · rw [Finset.insert_eq_of_mem (Adjacency.mem_edges.mpr h), g.counted]
    · rw [Finset.card_insert_of_notMem (fun hm => h (Adjacency.mem_edges.mp hm)), g.counted]

def addEdge (g : DirectedGraph) (u v : Vertex) : DirectedGraph :=
  ((g.addVertex u).addVertex v).insertEdge u v (by
    show v ∈ ((g.adj.tryEmplace u).tryEmplace v).keys
    rw [Adjacency.keys_tryEmplace]
    exact Finset.mem_insert_self v _)

def removeEdge (g : DirectedGraph) (u v : Vertex) : DirectedGraph :=
  if h : v ∈ g.neighbors u then
    { adj := g.adj.store u ((g.adj.neighbors u).erase v)
      edgeCount := g.edgeCount - 1
      closed := by
        intro a b hb
        rw [Adjacency.keys_store]
        apply Finset.mem_insert_of_mem
        rw [Adjacency.neighbors_store] at hb
        split_ifs at hb
        · exact g.closed u b (Finset.mem_of_mem_erase hb)
        · exact g.closed a b hb
      counted := by
        rw [Adjacency.edges_store_erase, Finset.card_erase_of_mem (Adjacency.mem_edges.mpr h),
          g.counted] }
  else g

/-- The public mutators. -/
inductive Op where
  | addVertex (v : Vertex)
  | addEdge (u v : Vertex)
  | removeEdge (u v : Vertex)
  | clear
  deriving DecidableEq, Repr

def apply (g : DirectedGraph) : Op → DirectedGraph
  | .addVertex v => g.addVertex v
  | .addEdge u v => g.addEdge u v
  | .removeEdge u v => g.removeEdge u v
  | .clear => empty

/-- The graph built by a sequence of calls. -/
def build (ops : List Op) : DirectedGraph := ops.foldl apply empty

/-! ## What the operations do to vertices and edges -/

/-- Both endpoints of an edge are vertices. -/
theorem Edge.mem_vertices {g : DirectedGraph} {u v : Vertex} (h : g.Edge u v) :
    u ∈ g.vertices ∧ v ∈ g.vertices :=
  ⟨Adjacency.mem_keys_of_mem_neighbors h, g.closed u v h⟩

/-- The empty graph has no vertices. -/
@[simp] theorem vertices_empty : empty.vertices = ∅ := rfl

/-- The empty graph has no neighbours. -/
@[simp] theorem neighbors_empty (v : Vertex) : empty.neighbors v = ∅ := rfl

/-- `add_vertex` adds one vertex. -/
@[simp] theorem vertices_addVertex (g : DirectedGraph) (v : Vertex) :
    (g.addVertex v).vertices = insert v g.vertices :=
  Adjacency.keys_tryEmplace g.adj v

/-- `add_vertex` keeps the rows. -/
@[simp] theorem neighbors_addVertex (g : DirectedGraph) (u v : Vertex) :
    (g.addVertex u).neighbors v = g.neighbors v :=
  Adjacency.neighbors_tryEmplace g.adj u v

/-- `add_edge` adds both ends. -/
@[simp] theorem vertices_addEdge (g : DirectedGraph) (u v : Vertex) :
    (g.addEdge u v).vertices = insert v (insert u g.vertices) := by
  show (((g.addVertex u).addVertex v).adj.store u _).keys = _
  rw [Adjacency.keys_store]
  show insert u ((g.addVertex u).addVertex v).vertices = _
  rw [vertices_addVertex, vertices_addVertex, Finset.insert_eq_of_mem]
  exact Finset.mem_insert_of_mem (Finset.mem_insert_self u _)

/-- `add_edge` changes the row of its source only. -/
theorem neighbors_addEdge (g : DirectedGraph) (u v w : Vertex) :
    (g.addEdge u v).neighbors w = if w = u then insert v (g.neighbors u) else g.neighbors w := by
  show (((g.addVertex u).addVertex v).adj.store u _).neighbors w = _
  rw [Adjacency.neighbors_store]
  simp only [addVertex, Adjacency.neighbors_tryEmplace]
  rfl

/-- `addEdge u v` adds the edge from `u` to `v` and no other. -/
theorem edge_addEdge {g : DirectedGraph} {u v a b : Vertex} :
    (g.addEdge u v).Edge a b ↔ (a = u ∧ b = v) ∨ g.Edge a b := by
  unfold Edge
  rw [neighbors_addEdge]
  split_ifs with h
  · rw [h, Finset.mem_insert]
    tauto
  · tauto

/-- `add_vertex` keeps the edges. -/
@[simp] theorem edge_addVertex {g : DirectedGraph} {u a b : Vertex} :
    (g.addVertex u).Edge a b ↔ g.Edge a b := by
  unfold Edge
  rw [neighbors_addVertex]

/-! ## Graphs compared -/

/-- A graph is determined by its vertices and edges. -/
theorem ext_edge {g g' : DirectedGraph} (hvertices : g.vertices = g'.vertices)
    (hedges : ∀ a b, g.Edge a b ↔ g'.Edge a b) : g = g' := by
  have hadj : g.adj = g'.adj := by
    refine Finmap.ext_lookup fun v => ?_
    have hmem : v ∈ g.adj ↔ v ∈ g'.adj := by
      rw [← Finmap.mem_keys, ← Finmap.mem_keys]
      exact Finset.ext_iff.mp hvertices v
    have hnbrs : g.adj.neighbors v = g'.adj.neighbors v := Finset.ext fun w => hedges v w
    unfold Adjacency.neighbors at hnbrs
    cases h : g.adj.lookup v with
    | none =>
      rw [Finmap.lookup_eq_none] at h
      exact (Finmap.lookup_eq_none.mpr fun hv => h (hmem.mpr hv)).symm
    | some s =>
      obtain ⟨s', h'⟩ := Finmap.mem_iff.mp (hmem.mp (Finmap.mem_of_lookup_eq_some h))
      rw [h, h', Option.getD_some, Option.getD_some] at hnbrs
      rw [h', hnbrs]
  obtain ⟨adj, edgeCount, closed, counted⟩ := g
  obtain ⟨adj', edgeCount', closed', counted'⟩ := g'
  obtain rfl : adj = adj' := hadj
  obtain rfl : edgeCount = edgeCount' := counted.trans counted'.symm
  rfl

/-! ## Iteration orders -/

/-- The orders in which `g.vertices()` and `g.neighbors(v)` are met by the loops
over one graph. -/
structure Order (g : DirectedGraph) where
  vertices : List Vertex
  neighbors : Vertex → List Vertex
  vertices_spec : Enumerates vertices g.vertices
  neighbors_spec : ∀ v, Enumerates (neighbors v) (g.neighbors v)

namespace Order

variable {g : DirectedGraph} (ord : g.Order)

/-- An enumeration lists exactly the vertices. -/
@[simp] theorem mem_vertices {v : Vertex} : v ∈ ord.vertices ↔ v ∈ g.vertices :=
  ord.vertices_spec.mem_iff v

/-- An enumeration lists exactly the neighbours. -/
@[simp] theorem mem_neighbors {u v : Vertex} : v ∈ ord.neighbors u ↔ g.Edge u v :=
  (ord.neighbors_spec u).mem_iff v

end Order

/-- The order that meets every neighbour set in the order of a listing of the
vertices. -/
def Order.ofVertices (g : DirectedGraph) (vs : List Vertex) (hvs : Enumerates vs g.vertices) :
    g.Order where
  vertices := vs
  neighbors := fun u => vs.filter fun v => decide (v ∈ g.neighbors u)
  vertices_spec := hvs
  neighbors_spec := by
    intro u
    refine Multiset.coe_eq_coe.mpr ?_ |>.trans (Finset.coe_toList (g.neighbors u))
    refine (List.perm_ext_iff_of_nodup (hvs.nodup.filter _) (Finset.nodup_toList _)).mpr ?_
    intro v
    rw [List.mem_filter, hvs.mem_iff, decide_eq_true_iff, Finset.mem_toList]
    exact ⟨fun h => h.2, fun h => ⟨g.closed u v h, h⟩⟩

instance (g : DirectedGraph) : Nonempty g.Order :=
  ⟨Order.ofVertices g g.vertices.toList g.vertices.coe_toList⟩

/-! ## Graphs without edges -/

/-- The calls that add the vertices `0, …, n - 1`. -/
def isolated (n : ℕ) : List Op := (List.range n).map fun i => .addVertex (UInt32.ofNat i)

/-- The vertices of a graph built by `add_vertex` alone. -/
theorem vertices_foldl_addVertex (vs : List Vertex) (g : DirectedGraph) :
    (vs.foldl addVertex g).vertices = g.vertices ∪ vs.toFinset := by
  induction vs generalizing g with
  | nil => simp
  | cons v vs ih =>
    rw [List.foldl_cons, ih, vertices_addVertex, List.toFinset_cons, Finset.insert_union,
      Finset.union_insert]

/-- Distinct numbers are distinct addresses. -/
theorem nodup_map_ofNat {n : ℕ} (hn : n ≤ 2 ^ 32) : ((List.range n).map UInt32.ofNat).Nodup := by
  refine List.nodup_range.map_on fun a ha b hb hab => ?_
  rw [List.mem_range] at ha hb
  have hlt : ∀ i < n, i < UInt32.size := fun i hi => lt_of_lt_of_le hi hn
  have h := congrArg UInt32.toNat hab
  rwa [UInt32.toNat_ofNat_of_lt' (hlt a ha), UInt32.toNat_ofNat_of_lt' (hlt b hb)] at h

/-- There are graphs of every size up to the number of addresses. -/
theorem numVertices_isolated {n : ℕ} (hn : n ≤ 2 ^ 32) :
    (build (isolated n)).numVertices = n := by
  have hbuild : build (isolated n) = ((List.range n).map UInt32.ofNat).foldl addVertex empty := by
    rw [build, isolated, List.foldl_map, List.foldl_map]
    rfl
  rw [numVertices, hbuild, vertices_foldl_addVertex, vertices_empty, Finset.empty_union,
    List.toFinset_card_of_nodup (nodup_map_ofNat hn), List.length_map, List.length_range]

/-! ## The transpose -/

/-- The loop body of `transpose()` for the key `u`: `gt.add_vertex(u)`, then
`gt.add_edge(v, u)` for every neighbour `v`. -/
def transposeRow (gt : DirectedGraph) (u : Vertex) (nbrs : List Vertex) : DirectedGraph :=
  nbrs.foldl (fun gt v => gt.addEdge v u) (gt.addVertex u)

/-- `transpose()`, iterating `adj_` and its sets in the order `ord`. -/
def transpose (g : DirectedGraph) (ord : g.Order) : DirectedGraph :=
  ord.vertices.foldl (fun gt u => gt.transposeRow u (ord.neighbors u)) empty

/-- One row of the transpose: what the inner loop adds. -/
theorem foldl_addEdge_spec (u : Vertex) (nbrs : List Vertex) (gt : DirectedGraph) :
    (∀ x, x ∈ (nbrs.foldl (fun gt v => gt.addEdge v u) gt).vertices
        ↔ x ∈ gt.vertices ∨ (nbrs ≠ [] ∧ x = u) ∨ x ∈ nbrs)
      ∧ ∀ a b, (nbrs.foldl (fun gt v => gt.addEdge v u) gt).Edge a b
        ↔ gt.Edge a b ∨ (a ∈ nbrs ∧ b = u) := by
  induction nbrs generalizing gt with
  | nil => simp
  | cons v nbrs ih =>
    obtain ⟨hv, he⟩ := ih (gt.addEdge v u)
    constructor
    · intro x
      rw [List.foldl_cons, hv x, vertices_addEdge, Finset.mem_insert, Finset.mem_insert,
        List.mem_cons]
      have hne : v :: nbrs ≠ [] := List.cons_ne_nil v nbrs
      tauto
    · intro a b
      rw [List.foldl_cons, he a b, edge_addEdge, List.mem_cons]
      tauto

/-- One row of the transpose adds the vertex `u`, its neighbours, and the
reversed edges into `u`. -/
theorem transposeRow_spec (gt : DirectedGraph) (u : Vertex) (nbrs : List Vertex) :
    (∀ x, x ∈ (gt.transposeRow u nbrs).vertices ↔ x ∈ gt.vertices ∨ x = u ∨ x ∈ nbrs)
      ∧ ∀ a b, (gt.transposeRow u nbrs).Edge a b ↔ gt.Edge a b ∨ (a ∈ nbrs ∧ b = u) := by
  obtain ⟨hv, he⟩ := foldl_addEdge_spec u nbrs (gt.addVertex u)
  constructor
  · intro x
    rw [transposeRow, hv x, vertices_addVertex, Finset.mem_insert]
    tauto
  · intro a b
    rw [transposeRow, he a b, edge_addVertex]

/-- The rows of the transpose: what the outer loop adds. -/
theorem foldl_transposeRow_spec (nbrs : Vertex → List Vertex) (us : List Vertex)
    (gt : DirectedGraph) :
    (∀ x, x ∈ (us.foldl (fun gt u => gt.transposeRow u (nbrs u)) gt).vertices
        ↔ x ∈ gt.vertices ∨ ∃ u ∈ us, x = u ∨ x ∈ nbrs u)
      ∧ ∀ a b, (us.foldl (fun gt u => gt.transposeRow u (nbrs u)) gt).Edge a b
        ↔ gt.Edge a b ∨ (b ∈ us ∧ a ∈ nbrs b) := by
  induction us generalizing gt with
  | nil => simp
  | cons u us ih =>
    obtain ⟨hv, he⟩ := ih (gt.transposeRow u (nbrs u))
    obtain ⟨hv', he'⟩ := transposeRow_spec gt u (nbrs u)
    constructor
    · intro x
      rw [List.foldl_cons, hv x, hv' x]
      simp only [List.mem_cons, exists_eq_or_imp]
      exact or_assoc
    · intro a b
      rw [List.foldl_cons, he a b, he' a b, List.mem_cons]
      constructor
      · rintro ((h | ⟨h, rfl⟩) | h)
        · exact Or.inl h
        · exact Or.inr ⟨Or.inl rfl, h⟩
        · exact Or.inr ⟨Or.inr h.1, h.2⟩
      · rintro (h | ⟨rfl | h, hab⟩)
        · exact Or.inl (Or.inl h)
        · exact Or.inl (Or.inr ⟨hab, rfl⟩)
        · exact Or.inr ⟨h, hab⟩

/-- The transpose has the same vertices. -/
theorem vertices_transpose (g : DirectedGraph) (ord : g.Order) :
    (g.transpose ord).vertices = g.vertices := by
  ext x
  rw [transpose, (foldl_transposeRow_spec ord.neighbors ord.vertices empty).1 x]
  simp only [vertices_empty, Finset.notMem_empty, false_or, Order.mem_vertices,
    Order.mem_neighbors]
  constructor
  · rintro ⟨u, hu, rfl | hx⟩
    · exact hu
    · exact hx.mem_vertices.2
  · intro hx
    exact ⟨x, hx, Or.inl rfl⟩

/-- The transpose has exactly the reversed edges. -/
theorem edge_transpose (g : DirectedGraph) (ord : g.Order) (a b : Vertex) :
    (g.transpose ord).Edge a b ↔ g.Edge b a := by
  rw [transpose, (foldl_transposeRow_spec ord.neighbors ord.vertices empty).2 a b]
  simp only [Order.mem_vertices, Order.mem_neighbors]
  constructor
  · rintro (h | ⟨_, h⟩)
    · exact absurd h (Finset.notMem_empty b)
    · exact h
  · intro h
    exact Or.inr ⟨h.mem_vertices.1, h⟩

end DirectedGraph
