/-
# `dsa::graph::Tarjan`

The explicit-stack form of Tarjan's algorithm, as `find_sccs` runs it: the maps
`disc`, `low` and `on_stack`, the vertex stack `stk`, the timer, and the stack
of frames that replaces the recursion.  `disc` and `low` hold values of type
`int`; incrementing a timer that has reached `INT_MAX` is undefined, and so is
`top()` of an empty stack, which is why a step yields an `Option`.
-/
import ZtMapper.Lib.Loop
import ZtMapper.Graph.DirectedGraph
import Mathlib.Logic.Function.Basic

open Loop

namespace Tarjan

/-- One suspended call: the vertex, a copy of its neighbours, and the index of
the next one. -/
structure Frame where
  u : Vertex
  neighbors : List Vertex
  idx : ℕ
  deriving DecidableEq, Repr

/-- The local variables of `find_sccs`.  The head of a stack is its top. -/
structure State where
  disc : Vertex → Option ℤ
  low : Vertex → ℤ
  onStack : Vertex → Bool
  stk : List Vertex
  sccs : List Component
  timer : ℤ
  callStack : List Frame

/-- All containers empty, `timer = 0`. -/
def init : State where
  disc := fun _ => none
  low := fun _ => 0
  onStack := fun _ => false
  stk := []
  sccs := []
  timer := 0
  callStack := []

/-- The value `disc[v]`; `operator[]` reads a missing key as `0`. -/
def State.discAt (s : State) (v : Vertex) : ℤ := (s.disc v).getD 0

/-- Enter `v`: `disc[v] = low[v] = timer++`, and push it on both stacks. -/
def enter (nbrs : Vertex → List Vertex) (v : Vertex) (s : State) : State :=
  { s with
    disc := Function.update s.disc v (some s.timer)
    low := Function.update s.low v s.timer
    timer := s.timer + 1
    onStack := Function.update s.onStack v true
    stk := v :: s.stk
    callStack := ⟨v, nbrs v, 0⟩ :: s.callStack }

/-- `enter`, which is undefined when `timer++` overflows. -/
def discover (nbrs : Vertex → List Vertex) (v : Vertex) (s : State) : Option State :=
  if s.timer < intMax then some (enter nbrs v s) else none

/-- The `do … while (w != cur.u)` loop that pops one component: the rest of
`stk`, the new `on_stack`, and `comp`. -/
def popComponent (u : Vertex) : List Vertex → (Vertex → Bool) → Component →
    Option (List Vertex × (Vertex → Bool) × Component)
  | [], _, _ => none
  | w :: stk, onStack, comp =>
    if w ≠ u then popComponent u stk (Function.update onStack w false) (comp ++ [w])
    else some (stk, Function.update onStack w false, comp ++ [w])

/-- `if (low[u] == disc[u])` pop the component of `u` and store it. -/
def closeComponent (u : Vertex) (s : State) : Option State :=
  if s.low u = s.discAt u then
    (popComponent u s.stk s.onStack []).map fun (stk, onStack, comp) =>
      { s with stk := stk, onStack := onStack, sccs := s.sccs ++ [comp] }
  else some s

/-- Pop the frame of `u`; the parent, when there is one, takes over its low-link. -/
def returnToParent (u : Vertex) (rest : List Frame) (s : State) : State :=
  match rest with
  | [] => { s with callStack := [] }
  | parent :: _ =>
    { s with
      callStack := rest
      low := Function.update s.low parent.u (min (s.low parent.u) (s.low u)) }

/-- `low[u] = min(low[u], disc[v])` -/
def backEdge (u v : Vertex) (s : State) : State :=
  { s with low := Function.update s.low u (min (s.low u) (s.discAt v)) }

/-- `cur.idx++` on the top frame. -/
def advance (cur : Frame) (rest : List Frame) (s : State) : State :=
  { s with callStack := { cur with idx := cur.idx + 1 } :: rest }

/-- The body of `while (!call_stack.empty())`. -/
def step (nbrs : Vertex → List Vertex) (s : State) : Option State :=
  match s.callStack with
  | [] => none
  | cur :: rest =>
    if h : cur.idx < cur.neighbors.length then
      let v := cur.neighbors[cur.idx]
      let s := advance cur rest s
      if (s.disc v).isNone then discover nbrs v s
      else if s.onStack v then some (backEdge cur.u v s)
      else some s
    else (closeComponent cur.u s).map (returnToParent cur.u rest)

/-- The body of `for (start : vertices)`. -/
def searchFrom (nbrs : Vertex → List Vertex) (fuel : ℕ) (s : State) (start : Vertex) :
    Option State :=
  if (s.disc start).isSome then some s
  else (discover nbrs start { s with callStack := [] }).bind
    (whileLoop (fun s => !s.callStack.isEmpty) (step nbrs) fuel)

/-- `Tarjan::find_sccs(g)`, with the iteration orders of `g` as an argument. -/
def findSccs {g : DirectedGraph} (ord : g.Order) (fuel : ℕ) : Option (List Component) :=
  (ord.vertices.foldlM (searchFrom ord.neighbors fuel) init).map (·.sccs)

end Tarjan
