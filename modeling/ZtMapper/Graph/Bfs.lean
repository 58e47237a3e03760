/-
# `dsa::graph::BFSReachability`

The queue loop of `reachable_within`: a vertex enters `result` and the queue
when it is first met, and vertices `max_hops` away are not expanded.
-/
import ZtMapper.Lib.Loop
import ZtMapper.Graph.DirectedGraph

open Loop Unordered

/-- Vertex to distance from the source. -/
abbrev ReachabilityResult := Map Vertex ℤ

namespace Bfs

/-- The local variables of `reachable_within`.  The head of `q` is its front. -/
structure State where
  result : ReachabilityResult
  q : List Vertex

/-- The body of `for (v : g.neighbors(u))`. -/
def visit (d : ℤ) (s : State) (v : Vertex) : State :=
  if v ∈ s.result then s
  else { result := s.result.insert v (d + 1), q := s.q ++ [v] }

/-- The body of `while (!q.empty())`.  `result[u]` reads a missing key as `0`. -/
def step (nbrs : Vertex → List Vertex) (maxHops : ℤ) (s : State) : Option State :=
  match s.q with
  | [] => none
  | u :: q =>
    let d := (s.result.lookup u).getD 0
    if d ≥ maxHops then some { s with q := q }
    else some ((nbrs u).foldl (visit d) { s with q := q })

/-- `BFSReachability::reachable_within(g, source, max_hops)`, with the iteration
orders of `g` as an argument. -/
def reachableWithin {g : DirectedGraph} (ord : g.Order) (source : Vertex) (maxHops : ℤ)
    (fuel : ℕ) : Option ReachabilityResult :=
  (whileLoop (fun s => !s.q.isEmpty) (step ord.neighbors maxHops) fuel
    { result := (∅ : ReachabilityResult).insert source 0, q := [source] }).map (·.result)

end Bfs
