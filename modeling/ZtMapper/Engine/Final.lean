/-
# The final outputs of the engine

After the last event `main` runs the SCC detector once more and writes the graph
snapshot and the statistics.  What they say of the graph is a function of the
pairs of addresses in the stream (`graphOf_congr`): neither the order of the
events, nor the detector, nor an iteration order shows in it.
-/
import ZtMapper.Engine.Burst
import ZtMapper.Engine.SccAnomaly

open Frequency Loop Pipeline Scc Unordered

/-- The name under which the estimator is registered. -/
def Frequency.Estimator.name : Estimator → String
  | .countMinSketch _ => "count_min_sketch"
  | .hashMapExact _ => "hash_map_exact"
  | .heavyHitters _ => "heavy_hitters"

def SccDetector.name : SccDetector → String
  | .tarjan => "tarjan"
  | .kosaraju => "kosaraju"

def ReachabilityAnalyzer.name : ReachabilityAnalyzer → String
  | .bfs => "bfs"
  | .dijkstra => "dijkstra"

namespace Engine

/-! ## The outputs -/

/-- What `write_graph_snapshot` lists, in its order. -/
structure GraphSnapshot where
  vertices : List String
  edges : List (String × String)
  sccs : List (List String)
  deriving DecidableEq, Repr

/-- The figures that `write_stats` writes. -/
structure Stats where
  totalEvents : UInt64
  alertsCount : UInt64
  graphVertices : ℕ
  graphEdges : ℕ
  nontrivialSccs : ℕ
  cmsMemory : ℕ
  freqAlgo : String
  sccAlgo : String
  reachAlgo : String
  deriving DecidableEq, Repr

structure FinalOutput where
  graph : GraphSnapshot
  stats : Stats
  deriving DecidableEq, Repr

/-- The loops of `write_graph_snapshot`; trivial components are skipped. -/
def graphSnapshot {g : DirectedGraph} (ord : g.Order) (sccs : List Component) : GraphSnapshot where
  vertices := ord.vertices.map ipToString
  edges := ord.vertices.flatMap fun v => (ord.neighbors v).map fun u => (ipToString v, ipToString u)
  sccs := (sccs.filter fun scc => scc.length > 1).map fun scc => scc.map ipToString

/-- What `main` does after the loop.  The memory an estimator reports depends on the
platform. -/
def finalOutput (eng : Engine) (env : Env) (memoryUsage : Estimator → ℕ) (n : ℕ) (s : State)
    (fuel : ℕ) : Option FinalOutput := do
  let sccs ← eng.sccDetector.findSccs (env.order n s.graph) (env.orderT n s.graph) fuel
  return {
    graph := graphSnapshot (env.order n s.graph) sccs
    stats := {
      totalEvents := s.totalEvents
      alertsCount := s.alertsCount
      graphVertices := s.graph.numVertices
      graphEdges := s.graph.numEdges
      nontrivialSccs := sccs.countP fun scc => scc.length > 1
      cmsMemory := memoryUsage s.freqEstimator
      freqAlgo := s.freqEstimator.name
      sccAlgo := eng.sccDetector.name
      reachAlgo := eng.reachability.name } }

/-- `main`, from the set-up to the final outputs. -/
def runFinal (env : Env) (cfg : PipelineConfig) (memoryUsage : Estimator → ℕ)
    (events : List NetworkEvent) (fuel : ℕ) : Option FinalOutput := do
  let (eng, _) ← setup env cfg
  let (s, outs) ← run env cfg events fuel
  eng.finalOutput env memoryUsage outs.length s fuel

/-- The engine reads the events, stops, and has written `f`. -/
def Finishes (env : Env) (cfg : PipelineConfig) (memoryUsage : Estimator → ℕ)
    (events : List NetworkEvent) (f : FinalOutput) : Prop :=
  Returns (runFinal env cfg memoryUsage events) f

variable {eng : Engine} {env : Env} {cfg : PipelineConfig} {memoryUsage : Estimator → ℕ}
  {s₀ s : State} {events events' : List NetworkEvent} {outs : List Output}

/-! ## The pairs of addresses -/

/-- The pairs of addresses of a stream. -/
def pairs (events : List NetworkEvent) : Finset (Vertex × Vertex) :=
  (events.map fun evt => (evt.srcIp, evt.dstIp)).toFinset

/-- The addresses of a stream. -/
def addresses (events : List NetworkEvent) : Finset Vertex :=
  (pairs events).image Prod.fst ∪ (pairs events).image Prod.snd

theorem mem_pairs {a b : Vertex} :
    (a, b) ∈ pairs events ↔ ∃ evt ∈ events, evt.srcIp = a ∧ evt.dstIp = b := by
  simp [pairs]

theorem mem_addresses {v : Vertex} :
    v ∈ addresses events ↔ ∃ evt ∈ events, v = evt.srcIp ∨ v = evt.dstIp := by
  rw [addresses, Finset.mem_union, Finset.mem_image, Finset.mem_image]
  constructor
  · rintro (⟨⟨a, b⟩, hab, rfl⟩ | ⟨⟨a, b⟩, hab, rfl⟩)
    · obtain ⟨evt, hevt, rfl, -⟩ := mem_pairs.mp hab
      exact ⟨evt, hevt, Or.inl rfl⟩
    · obtain ⟨evt, hevt, -, rfl⟩ := mem_pairs.mp hab
      exact ⟨evt, hevt, Or.inr rfl⟩
  · rintro ⟨evt, hevt, rfl | rfl⟩
    · exact Or.inl ⟨_, mem_pairs.mpr ⟨evt, hevt, rfl, rfl⟩, rfl⟩
    · exact Or.inr ⟨_, mem_pairs.mpr ⟨evt, hevt, rfl, rfl⟩, rfl⟩

/-- The graph has the addresses as vertices and the pairs as edges. -/
theorem vertices_graphOf (events : List NetworkEvent) :
    (graphOf events).vertices = addresses events := by
  ext v
  rw [mem_vertices_graphOf, mem_addresses]

theorem edges_graphOf (events : List NetworkEvent) : (graphOf events).adj.edges = pairs events := by
  ext ⟨a, b⟩
  rw [mem_pairs, Adjacency.mem_edges]
  exact edge_graphOf

/-- **The graph is a function of the pairs**, whatever the history. -/
theorem graphOf_congr (hpairs : pairs events = pairs events') : graphOf events = graphOf events' := by
  refine DirectedGraph.ext_edge ?_ fun a b => ?_
  · rw [vertices_graphOf, vertices_graphOf, addresses, addresses, hpairs]
  · rw [edge_graphOf, edge_graphOf, ← mem_pairs, ← mem_pairs, hpairs]

/-! ## The final outputs are those of the graph -/

/-- What an output says of the graph of the events. -/
structure Describes (events : List NetworkEvent) (f : FinalOutput) : Prop where
  graphVertices_eq : f.stats.graphVertices = (addresses events).card
  graphEdges_eq : f.stats.graphEdges = (pairs events).card
  nontrivialSccs_eq : f.stats.nontrivialSccs
    = {C | IsNontrivial (graphOf events).vertices (graphOf events).Edge C}.ncard
  vertices_eq : f.graph.vertices.toFinset = (addresses events).image ipToString
  edges_eq : f.graph.edges.toFinset
    = (pairs events).image fun p => (ipToString p.1, ipToString p.2)
  sccs_eq : {C | ∃ scc ∈ f.graph.sccs, scc.toFinset = C} = {D | ∃ C,
    IsNontrivial (graphOf events).vertices (graphOf events).Edge C ∧ C.image ipToString = D}

theorem toFinset_map_ipToString (scc : Component) :
    (scc.map ipToString).toFinset = scc.toFinset.image ipToString := by
  ext x
  simp

/-- The snapshot of a graph, from a partition into components. -/
theorem describes_of_isSccPartition {f : FinalOutput} {g : DirectedGraph} (hg : g = graphOf events)
    (ord : g.Order) {sccs : List Component} (hpart : IsSccPartition g.vertices g.Edge sccs)
    (hgraph : f.graph = graphSnapshot ord sccs)
    (hvertices : f.stats.graphVertices = g.numVertices)
    (hedges : f.stats.graphEdges = g.numEdges)
    (hsccs : f.stats.nontrivialSccs = sccs.countP fun scc => scc.length > 1) :
    Describes events f := by
  subst hg
  refine ⟨?_, ?_, ?_, ?_, ?_, ?_⟩
  · rw [hvertices, DirectedGraph.numVertices, vertices_graphOf]
  · rw [hedges, DirectedGraph.numEdges, (graphOf events).counted, edges_graphOf]
  · rw [hsccs, hpart.ncard_isNontrivial (closed_graphOf events)]
  -- the vertices, the edges and the components of the snapshot
  · ext x
    rw [hgraph, List.mem_toFinset, Finset.mem_image]
    simp only [graphSnapshot, List.mem_map, DirectedGraph.Order.mem_vertices, vertices_graphOf]
  · ext ⟨x, y⟩
    rw [hgraph, List.mem_toFinset, Finset.mem_image]
    simp only [graphSnapshot, List.mem_flatMap, List.mem_map, DirectedGraph.Order.mem_vertices,
      DirectedGraph.Order.mem_neighbors, Prod.exists]
    constructor
    · rintro ⟨a, -, b, hab, heq⟩
      exact ⟨a, b, mem_pairs.mpr (edge_graphOf.mp hab), heq⟩
    · rintro ⟨a, b, hab, heq⟩
      have hedge := edge_graphOf.mpr (mem_pairs.mp hab)
      exact ⟨a, hedge.mem_vertices.1, b, hedge, heq⟩
  · ext D
    rw [hgraph]
    simp only [graphSnapshot, Set.mem_ofPred_eq, List.mem_map, List.mem_filter,
      decide_eq_true_iff, hpart.isNontrivial_iff (closed_graphOf events)]
    constructor
    · rintro ⟨-, ⟨scc, ⟨hscc, hlen⟩, rfl⟩, rfl⟩
      exact ⟨scc.toFinset, ⟨scc, hscc, hlen, rfl⟩, by rw [toFinset_map_ipToString]⟩
    · rintro ⟨-, ⟨scc, hscc, hlen, rfl⟩, rfl⟩
      exact ⟨_, ⟨scc, ⟨hscc, hlen⟩, rfl⟩, by rw [toFinset_map_ipToString]⟩

/-! ## The end of a run -/

/-- The engine finishes when the loop returns and the last detection does. -/
theorem finishes_iff (hsetup : setup env cfg = some (eng, s₀)) {f : FinalOutput} :
    Finishes env cfg memoryUsage events f ↔ ∃ s outs, Reaches env cfg events s outs ∧
      Returns (eng.finalOutput env memoryUsage outs.length s) f := by
  have heq : runFinal env cfg memoryUsage events = fun n => (run env cfg events n).bind fun r =>
      eng.finalOutput env memoryUsage r.2.length r.1 n := by
    funext n
    rw [runFinal, hsetup]
    rfl
  rw [Finishes, heq]
  constructor
  · intro h
    obtain ⟨⟨s, outs⟩, hrun, hfinal⟩ := Returns.of_bind (settles_run env cfg events) h
    exact ⟨s, outs, hrun, hfinal⟩
  · rintro ⟨s, outs, hrun, hfinal⟩
    exact Returns.bind hrun hfinal

/-- **What an engine writes at its end** describes the graph of the events. -/
theorem exists_finishes (hsetup : setup env cfg = some (eng, s₀))
    (hlo : 1 ≤ cfg.sccIntervalSeconds.toInt) (hhi : cfg.sccIntervalSeconds.toInt ≤ 100000000)
    (hsize : eng.CountsVertices → (addresses events).card < 2 ^ 31)
    (memoryUsage : Estimator → ℕ) :
    ∃ f, Finishes env cfg memoryUsage events f ∧ Describes events f := by
  obtain ⟨m, hm, -⟩ := sccPeriod_eq hlo hhi
  rw [← vertices_graphOf] at hsize
  obtain ⟨s, outs, hrun⟩ := exists_reaches_of_size hsetup ⟨m, hm⟩ events hsize
  obtain ⟨hgraph, -, -⟩ := hrun.counters
  have hnum : eng.sccDetector = .tarjan → s.graph.numVertices < 2 ^ 31 := fun h =>
    hgraph ▸ hsize (Or.inl h)
  obtain ⟨sccs, hret, hpart, -⟩ := (SccDetector.outcome_findSccs eng.sccDetector
    (env.order outs.length s.graph) (env.orderT outs.length s.graph)).returns
    fun h => absurd (hnum h.1) (not_lt.mpr h.2)
  refine ⟨_, (finishes_iff hsetup).mpr ⟨s, outs, hrun, hret.bind (returns_const rfl)⟩, ?_⟩
  exact describes_of_isSccPartition hgraph _ hpart rfl rfl rfl rfl

/-- The figures and the snapshots of the graph agree, up to the order of the lists. -/
structure SameGraph (f f' : FinalOutput) : Prop where
  graphVertices_eq : f.stats.graphVertices = f'.stats.graphVertices
  graphEdges_eq : f.stats.graphEdges = f'.stats.graphEdges
  nontrivialSccs_eq : f.stats.nontrivialSccs = f'.stats.nontrivialSccs
  vertices_eq : f.graph.vertices.toFinset = f'.graph.vertices.toFinset
  edges_eq : f.graph.edges.toFinset = f'.graph.edges.toFinset
  sccs_eq : {C | ∃ scc ∈ f.graph.sccs, scc.toFinset = C}
    = {C | ∃ scc ∈ f'.graph.sccs, scc.toFinset = C}

/-- Both outputs are those of the one graph. -/
theorem Describes.sameGraph {f f' : FinalOutput} (h : Describes events f)
    (h' : Describes events' f') (hpairs : pairs events = pairs events') : SameGraph f f' := by
  have haddresses : addresses events = addresses events' := by
    rw [addresses, addresses, hpairs]
  refine ⟨?_, ?_, ?_, ?_, ?_, ?_⟩
  · rw [h.graphVertices_eq, h'.graphVertices_eq, haddresses]
  · rw [h.graphEdges_eq, h'.graphEdges_eq, hpairs]
  · rw [h.nontrivialSccs_eq, h'.nontrivialSccs_eq, graphOf_congr hpairs]
  · rw [h.vertices_eq, h'.vertices_eq, haddresses]
  · rw [h.edges_eq, h'.edges_eq, hpairs]
  · rw [h.sccs_eq, h'.sccs_eq, graphOf_congr hpairs]

/-- **Two engines that read the same pairs of addresses** finish, and write the
same graph, whatever their detectors, their other settings and the orders. -/
theorem final_agree {env' : Env} {cfg' : PipelineConfig} {eng' : Engine} {s₀' : State}
    (hsetup : setup env cfg = some (eng, s₀)) (hsetup' : setup env' cfg' = some (eng', s₀'))
    (hlo : 1 ≤ cfg.sccIntervalSeconds.toInt) (hhi : cfg.sccIntervalSeconds.toInt ≤ 100000000)
    (hlo' : 1 ≤ cfg'.sccIntervalSeconds.toInt) (hhi' : cfg'.sccIntervalSeconds.toInt ≤ 100000000)
    (hpairs : pairs events = pairs events')
    (hsize : eng.CountsVertices ∨ eng'.CountsVertices → (addresses events).card < 2 ^ 31)
    (memoryUsage memoryUsage' : Estimator → ℕ) :
    ∃ f f', Finishes env cfg memoryUsage events f ∧ Finishes env' cfg' memoryUsage' events' f' ∧
      f.stats.graphVertices = (addresses events).card ∧
      f.stats.graphEdges = (pairs events).card ∧ SameGraph f f' := by
  have hsize' : eng'.CountsVertices → (addresses events').card < 2 ^ 31 := by
    intro h
    rw [addresses, ← hpairs]
    exact hsize (Or.inr h)
  obtain ⟨f, hf, hdesc⟩ :=
    exists_finishes hsetup hlo hhi (fun h => hsize (Or.inl h)) memoryUsage
  obtain ⟨f', hf', hdesc'⟩ := exists_finishes hsetup' hlo' hhi' hsize' memoryUsage'
  exact ⟨f, f', hf, hf', hdesc.graphVertices_eq, hdesc.graphEdges_eq,
    hdesc.sameGraph hdesc' hpairs⟩

/-- A cycle of two hosts, seen in two orders by two detectors. -/
theorem final_agree_cycle :
    ∃ env f f',
      Finishes env (.plain "hash_map_exact" "tarjan") (fun _ => 0) (linked [(1, 2), (2, 1)]) f ∧
      Finishes env (.plain "count_min_sketch" "kosaraju") (fun _ => 0)
        (linked [(2, 1), (1, 2), (2, 1)]) f' ∧
      f.stats.graphVertices = 2 ∧ f.stats.graphEdges = 2 ∧ SameGraph f f' := by
  obtain ⟨env⟩ := (inferInstance : Nonempty Env)
  obtain ⟨eng, s₀, hsetup⟩ :=
    exists_setup (.plain "hash_map_exact" "tarjan") rfl rfl rfl rfl env
  obtain ⟨eng', s₀', hsetup'⟩ :=
    exists_setup (.plain "count_min_sketch" "kosaraju") rfl rfl rfl rfl env
  have hpairs : pairs (linked [(1, 2), (2, 1)]) = pairs (linked [(2, 1), (1, 2), (2, 1)]) := by
    decide
  obtain ⟨f, f', hf, hf', hvertices, hedges, hsame⟩ := final_agree hsetup hsetup' (by decide)
    (by decide) (by decide) (by decide) hpairs (fun _ => by decide) (fun _ => 0) fun _ => 0
  exact ⟨env, f, f', hf, hf', hvertices.trans (by decide), hedges.trans (by decide), hsame⟩

/-- On too many hosts the engine with `Kosaraju` finishes, and the one with
`Tarjan` does not. -/
theorem not_final_agree :
    ∃ env memoryUsage,
      (∃ f, Finishes env (alertingConfig "hash_map_exact" "kosaraju" 0) memoryUsage
        (wide (2 ^ 31 + 2)) f) ∧
      ¬ ∃ f, Finishes env (alertingConfig "hash_map_exact" "tarjan" 0) memoryUsage
        (wide (2 ^ 31 + 2)) f := by
  have hlo : 2 ^ 31 ≤ 2 ^ 31 + 2 := Nat.le_add_right _ _
  have hhi : 2 ^ 31 + 2 ≤ 2 ^ 32 := by norm_num
  have hmod : (2 ^ 31 + 2) % 10 = 0 := by norm_num
  generalize 2 ^ 31 + 2 = m at hlo hhi hmod ⊢
  obtain ⟨env⟩ := (inferInstance : Nonempty Env)
  refine ⟨env, fun _ => 0, ?_, ?_⟩
  · obtain ⟨eng, s₀, hsetup⟩ :=
      exists_setup (alertingConfig "hash_map_exact" "kosaraju" 0) rfl rfl rfl rfl env
    have hcreated := created_of_setup hsetup
    have hfinal : ∃ f, Finishes env _ (fun _ => 0) (wide m) f ∧ Describes (wide m) f :=
      exists_finishes hsetup (by decide) (by decide)
        (fun h => absurd h (hcreated.not_countsVertices rfl rfl)) fun _ => 0
    obtain ⟨f, hf, -⟩ := hfinal
    exact ⟨f, hf⟩
  · rintro ⟨f, hf⟩
    obtain ⟨eng, s₀, hsetup⟩ :=
      exists_setup (alertingConfig "hash_map_exact" "tarjan" 0) rfl rfl rfl rfl env
    obtain ⟨s, outs, hrun, -⟩ := (finishes_iff hsetup).mp hf
    exact not_reaches_wide env hlo hhi hmod hrun

end Engine
