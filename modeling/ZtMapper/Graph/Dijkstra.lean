/-
# `dsa::graph::DijkstraReachability`

The heap loop of `reachable_within` on a graph all of whose edges cost `1`.  The
priority queue is kept as a sorted list, so that its head is `top()`; equal
entries are indistinguishable.  The sum `d_u + 1` of type `int` is undefined
when it overflows.
-/
import ZtMapper.Graph.Bfs
import Mathlib.Data.List.Sort

open Loop Unordered

namespace Dijkstra

/-- The order of `std::pair<int, uint32_t>`. -/
def EntryLe (a b : ℤ × Vertex) : Prop := a.1 < b.1 ∨ (a.1 = b.1 ∧ a.2 ≤ b.2)

instance : DecidableRel EntryLe := fun a b =>
  inferInstanceAs (Decidable (a.1 < b.1 ∨ (a.1 = b.1 ∧ a.2 ≤ b.2)))

/-- The local variables of `reachable_within`, and whether the loop was left by
its `break`. -/
structure State where
  result : ReachabilityResult
  pq : List (ℤ × Vertex)
  stopped : Bool

/-- The body of `for (v : g.neighbors(u))`. -/
def relax (maxHops dU : ℤ) (s : State) (v : Vertex) : Option State :=
  if dU < intMax then
    if v ∉ s.result ∧ dU + 1 ≤ maxHops then
      some { s with pq := s.pq.orderedInsert EntryLe (dU + 1, v) }
    else some s
  else none

/-- The body of `while (!pq.empty())`. -/
def step (nbrs : Vertex → List Vertex) (maxHops : ℤ) (s : State) : Option State :=
  match s.pq with
  | [] => none
  | (dU, u) :: pq =>
    if dU > maxHops then some { s with pq := pq, stopped := true }
    else if u ∈ s.result then some { s with pq := pq }
    else (nbrs u).foldlM (relax maxHops dU)
      { s with result := s.result.insert u dU, pq := pq }

/-- `DijkstraReachability::reachable_within(g, source, max_hops)`, with the
iteration orders of `g` as an argument. -/
def reachableWithin {g : DirectedGraph} (ord : g.Order) (source : Vertex) (maxHops : ℤ)
    (fuel : ℕ) : Option ReachabilityResult :=
  (whileLoop (fun s => !s.stopped && !s.pq.isEmpty) (step ord.neighbors maxHops) fuel
    { result := ∅, pq := [(0, source)], stopped := false }).map (·.result)

end Dijkstra
