/-
# `dsa::graph::Kosaraju`

The two passes of `find_sccs`: an iterative depth-first search whose stack holds
vertices to visit and post-visit markers, which yields the finish order, and a
search of the transpose from the vertices in reverse finish order.  A vertex may
be pushed several times; it is visited when it is first popped.
-/
import ZtMapper.Lib.Loop
import ZtMapper.Graph.DirectedGraph

open Loop

namespace Kosaraju

/-- The variables of the first pass.  The heads of `finishOrder` and `dfs` are
their tops; the flag of an entry of `dfs` is `is_postvisit`. -/
structure Pass1 where
  visited : Finset Vertex
  finishOrder : List Vertex
  dfs : List (Vertex × Bool)

/-- `for (v : g.neighbors(u)) if (!visited.count(v)) dfs.push({v, false});` -/
def pushUnvisited (visited : Finset Vertex) (nbrs : List Vertex)
    (dfs : List (Vertex × Bool)) : List (Vertex × Bool) :=
  nbrs.foldl (fun dfs v => if v ∈ visited then dfs else (v, false) :: dfs) dfs

/-- The body of `while (!dfs.empty())` in the first pass. -/
def step1 (nbrs : Vertex → List Vertex) (s : Pass1) : Option Pass1 :=
  match s.dfs with
  | [] => none
  | (u, post) :: dfs =>
    if post then some { s with finishOrder := u :: s.finishOrder, dfs := dfs }
    else if u ∈ s.visited then some { s with dfs := dfs }
    else
      let visited := insert u s.visited
      some { s with
        visited := visited
        dfs := pushUnvisited visited (nbrs u) ((u, true) :: dfs) }

/-- The body of `for (start : vertices)`. -/
def searchFrom (nbrs : Vertex → List Vertex) (fuel : ℕ) (s : Pass1) (start : Vertex) :
    Option Pass1 :=
  if start ∈ s.visited then some s
  else whileLoop (fun s => !s.dfs.isEmpty) (step1 nbrs) fuel { s with dfs := [(start, false)] }

/-- The variables of one search of the second pass. -/
structure Pass2 where
  visited : Finset Vertex
  comp : Component
  dfs : List Vertex

/-- The body of `while (!dfs.empty())` in the second pass. -/
def step2 (nbrs : Vertex → List Vertex) (s : Pass2) : Option Pass2 :=
  match s.dfs with
  | [] => none
  | u :: dfs =>
    if u ∈ s.visited then some { s with dfs := dfs }
    else
      let visited := insert u s.visited
      some {
        visited := visited
        comp := s.comp ++ [u]
        dfs := (nbrs u).foldl (fun dfs v => if v ∈ visited then dfs else v :: dfs) dfs }

/-- The body of `while (!finish_order.empty())`, for the popped vertex `start`. -/
def collectFrom (nbrs : Vertex → List Vertex) (fuel : ℕ)
    (s : Finset Vertex × List Component) (start : Vertex) :
    Option (Finset Vertex × List Component) :=
  if start ∈ s.1 then some s
  else (whileLoop (fun t => !t.dfs.isEmpty) (step2 nbrs) fuel
    { visited := s.1, comp := [], dfs := [start] }).map fun t => (t.visited, s.2 ++ [t.comp])

/-- `Kosaraju::find_sccs(g)`, with the iteration orders of `g` and of its
transpose as arguments. -/
def findSccs {g : DirectedGraph} (ord : g.Order) (ordT : (g.transpose ord).Order) (fuel : ℕ) :
    Option (List Component) :=
  (ord.vertices.foldlM (searchFrom ord.neighbors fuel)
      { visited := ∅, finishOrder := [], dfs := [] }).bind fun s =>
    (s.finishOrder.foldlM (collectFrom ordT.neighbors fuel) (∅, [])).map (·.2)

end Kosaraju
