/-
# `dsa::graph::ReachabilityAnalyzer`

The interface the engine calls and its two registered implementations, and why
both terminate: the queue of the one and the heap of the other grow only by
vertices that were not settled before.  The distances of Dijkstra's algorithm
overflow only where `max_hops` is `INT_MAX`, on `2^31` vertices or more.
-/
import ZtMapper.Graph.Bfs
import ZtMapper.Graph.Dijkstra
import Mathlib.Algebra.BigOperators.Ring.Finset
import Mathlib.Tactic.Common

open Loop Unordered

/-- The registered implementations. -/
inductive ReachabilityAnalyzer where
  | bfs
  | dijkstra
  deriving DecidableEq, Repr

/-- `analyzer.reachable_within(g, source, max_hops)` -/
def ReachabilityAnalyzer.reachableWithin (analyzer : ReachabilityAnalyzer) {g : DirectedGraph}
    (ord : g.Order) (source : Vertex) (maxHops : ℤ) (fuel : ℕ) : Option ReachabilityResult :=
  match analyzer with
  | .bfs => Bfs.reachableWithin ord source maxHops fuel
  | .dijkstra => Dijkstra.reachableWithin ord source maxHops fuel

/-! ## Breadth-first search -/

namespace Bfs

/-- Queued vertices, and vertices of the graph not met yet. -/
def measure (verts : Finset Vertex) (s : State) : ℕ := s.q.length + (verts \ s.result.keys).card

theorem measure_visit {verts : Finset Vertex} (d : ℤ) (s : State) {v : Vertex} (hv : v ∈ verts) :
    measure verts (visit d s v) = measure verts s := by
  unfold visit
  split_ifs with h
  · rfl
  · have hmem : v ∈ verts \ s.result.keys := by
      rw [Finset.mem_sdiff, Finmap.mem_keys]
      exact ⟨hv, h⟩
    have hpos := Finset.card_pos.mpr ⟨v, hmem⟩
    rw [measure, measure, List.length_append, List.length_singleton, keys_insert,
      Finset.sdiff_insert, Finset.card_erase_of_mem hmem]
    omega

theorem measure_foldl_visit {verts : Finset Vertex} (d : ℤ) (nbrs : List Vertex) (s : State)
    (hnbrs : ∀ v ∈ nbrs, v ∈ verts) : measure verts (nbrs.foldl (visit d) s) = measure verts s := by
  induction nbrs generalizing s with
  | nil => rfl
  | cons v nbrs ih =>
    rw [List.foldl_cons, ih _ fun w hw => hnbrs w (List.mem_cons_of_mem v hw),
      measure_visit d s (hnbrs v List.mem_cons_self)]

/-- A round lowers the measure. -/
theorem measure_step {g : DirectedGraph} (ord : g.Order) (maxHops : ℤ) {s : State}
    (hne : s.q ≠ []) : ∃ s', step ord.neighbors maxHops s = some s' ∧
      measure g.vertices s' < measure g.vertices s := by
  obtain ⟨result, q⟩ := s
  cases q with
  | nil => exact absurd rfl hne
  | cons u q =>
    rw [step]
    dsimp only
    split_ifs with hd
    · exact ⟨_, rfl, by simp [measure]⟩
    · refine ⟨_, rfl, ?_⟩
      rw [measure_foldl_visit _ _ _ fun v hv => (ord.mem_neighbors.mp hv).mem_vertices.2]
      simp [measure]

/-- **Breadth-first search terminates**, in a state with any invariant of its
rounds. -/
theorem returns_reachableWithin {g : DirectedGraph} (ord : g.Order) (source : Vertex)
    (maxHops : ℤ) (I : State → Prop)
    (hstep : ∀ s s', I s → step ord.neighbors maxHops s = some s' → I s')
    (hinit : I ⟨(∅ : ReachabilityResult).insert source 0, [source]⟩) :
    ∃ s, Returns (reachableWithin ord source maxHops) s.result ∧ I s ∧ s.q = [] := by
  obtain ⟨s, hret, hs, hq⟩ := returns_whileLoop (fun s => !s.q.isEmpty)
    (step ord.neighbors maxHops) I (measure g.vertices)
    (fun s hs hne => by
      obtain ⟨s', heq, hlt⟩ := measure_step ord maxHops (s := s) fun hnil => by
        rw [hnil] at hne
        exact absurd hne (by simp)
      exact ⟨s', heq, hstep s s' hs heq, hlt⟩)
    hinit
  exact ⟨s, hret.map _, hs, by simpa using hq⟩

end Bfs

/-! ## Dijkstra's algorithm -/

namespace Dijkstra

variable {nbrs : Vertex → List Vertex} {verts : Finset Vertex} {maxHops : ℤ}

/-- Heap entries, and for the vertices not settled yet the entries they can push. -/
def measure (nbrs : Vertex → List Vertex) (verts : Finset Vertex) (s : State) : ℕ :=
  s.pq.length + ∑ v ∈ verts \ s.result.keys, ((nbrs v).length + 1)

/-- Entries are vertices, at a distance of at most the number of settled vertices. -/
def Inv (verts : Finset Vertex) (s : State) : Prop :=
  s.result.keys ⊆ verts ∧ ∀ e ∈ s.pq, e.2 ∈ verts ∧ e.1 ≤ s.result.keys.card

/-- Relaxing the edges of a vertex at distance `dU` pushes at most one entry each. -/
theorem foldlM_relax (maxHops : ℤ) {dU : ℤ} (hdU : dU < intMax) (l : List Vertex) (s : State) :
    ∃ s', l.foldlM (relax maxHops dU) s = some s' ∧ s'.result = s.result ∧
      s'.pq.length ≤ s.pq.length + l.length ∧
      ∀ e ∈ s'.pq, e ∈ s.pq ∨ (e.1 = dU + 1 ∧ e.2 ∈ l) := by
  induction l generalizing s with
  | nil => exact ⟨s, rfl, rfl, le_rfl, fun e he => Or.inl he⟩
  | cons v l ih =>
    rw [List.foldlM_cons, relax, if_pos hdU]
    by_cases hpush : v ∉ s.result ∧ dU + 1 ≤ maxHops
    · rw [if_pos hpush, Option.bind_eq_bind, Option.bind_some]
      obtain ⟨s', hs', hres, hlen, hmem⟩ :=
        ih { s with pq := s.pq.orderedInsert EntryLe (dU + 1, v) }
      refine ⟨s', hs', hres, ?_, fun e he => ?_⟩
      · rw [List.orderedInsert_length] at hlen
        rw [List.length_cons]
        omega
      · rcases hmem e he with he | ⟨h1, h2⟩
        · rcases List.mem_orderedInsert _ |>.mp he with rfl | he
          · exact Or.inr ⟨rfl, List.mem_cons_self⟩
          · exact Or.inl he
        · exact Or.inr ⟨h1, List.mem_cons_of_mem v h2⟩
    · rw [if_neg hpush, Option.bind_eq_bind, Option.bind_some]
      obtain ⟨s', hs', hres, hlen, hmem⟩ := ih s
      refine ⟨s', hs', hres, by rw [List.length_cons]; omega, fun e he => ?_⟩
      exact (hmem e he).imp_right fun h => ⟨h.1, List.mem_cons_of_mem v h.2⟩

/-- **One round** keeps the invariant and lowers the measure, unless a distance
overflows. -/
theorem step_spec (hclosed : ∀ u, ∀ v ∈ nbrs u, v ∈ verts) {s : State} (h : Inv verts s)
    (hne : s.pq ≠ []) :
    ((intMax ≤ maxHops ∧ 2 ^ 31 ≤ verts.card) ∧ step nbrs maxHops s = none) ∨
      ∃ s', step nbrs maxHops s = some s' ∧ Inv verts s' ∧
        measure nbrs verts s' < measure nbrs verts s := by
  obtain ⟨result, pq, stopped⟩ := s
  cases pq with
  | nil => exact absurd rfl hne
  | cons e pq =>
    obtain ⟨dU, u⟩ := e
    obtain ⟨hkeys, hpq⟩ := h
    obtain ⟨hu, hdU⟩ := hpq (dU, u) List.mem_cons_self
    have hrest : ∀ e ∈ pq, e.2 ∈ verts ∧ e.1 ≤ result.keys.card := fun e he =>
      hpq e (List.mem_cons_of_mem _ he)
    rw [step]
    dsimp only at hu hdU ⊢
    split_ifs with hstop hold
    · exact Or.inr ⟨_, rfl, ⟨hkeys, hrest⟩, by simp [measure]⟩
    · exact Or.inr ⟨_, rfl, ⟨hkeys, hrest⟩, by simp [measure]⟩
    · have hnew : u ∈ verts \ result.keys := by
        rw [Finset.mem_sdiff, Finmap.mem_keys]
        exact ⟨hu, hold⟩
      have hcard : result.keys.card < verts.card := by
        refine Finset.card_lt_card ⟨hkeys, fun hsub => ?_⟩
        exact (Finset.mem_sdiff.mp hnew).2 (hsub hu)
      have hcard' : (insert u result.keys).card = result.keys.card + 1 :=
        Finset.card_insert_of_notMem (Finset.mem_sdiff.mp hnew).2
      have hsum : ∑ v ∈ verts \ insert u result.keys, ((nbrs v).length + 1)
          + ((nbrs u).length + 1) = ∑ v ∈ verts \ result.keys, ((nbrs v).length + 1) := by
        rw [Finset.sdiff_insert, Finset.sum_erase_add _ _ hnew]
      by_cases hlt : dU < intMax
      · right
        obtain ⟨s', hs', hres, hlen, hmem⟩ := foldlM_relax maxHops hlt (nbrs u)
          ⟨result.insert u dU, pq, stopped⟩
        have hkeys' : s'.result.keys = insert u result.keys := by
          rw [hres, keys_insert]
        refine ⟨s', hs', ⟨?_, fun e he => ?_⟩, ?_⟩
        · rw [hkeys']
          exact Finset.insert_subset hu hkeys
        · rw [hkeys', hcard']
          rcases hmem e he with he | ⟨h1, h2⟩
          · have := hrest e he
            exact ⟨this.1, by push_cast; omega⟩
          · exact ⟨hclosed u e.2 h2, by push_cast; omega⟩
        · rw [measure, measure, hkeys', ← hsum, List.length_cons]
          dsimp only at hlen
          omega
      · -- the distance of an unsettled vertex is `INT_MAX`
        have hbig : 2 ^ 31 ≤ verts.card := by
          rw [intMax] at hlt
          omega
        cases hn : nbrs u with
        | nil =>
          right
          have hkeys' : (result.insert u dU).keys = insert u result.keys := keys_insert _ _ _
          refine ⟨_, rfl, ⟨?_, fun e he => ?_⟩, ?_⟩
          · rw [hkeys']
            exact Finset.insert_subset hu hkeys
          · have := hrest e he
            rw [hkeys', hcard']
            exact ⟨this.1, by push_cast; omega⟩
          · rw [measure, measure, hkeys', ← hsum, List.length_cons]
            dsimp only
            omega
        | cons v l =>
          left
          rw [List.foldlM_cons, relax, if_neg hlt]
          exact ⟨⟨(not_lt.mp hlt).trans (not_lt.mp hstop), hbig⟩, rfl⟩

/-- **Dijkstra's algorithm terminates**, unless the distances overflow. -/
theorem outcome_reachableWithin {g : DirectedGraph} (ord : g.Order) {source : Vertex}
    (hsource : source ∈ g.vertices) (maxHops : ℤ) :
    Outcome (intMax ≤ maxHops ∧ 2 ^ 31 ≤ g.numVertices) (reachableWithin ord source maxHops)
      fun _ => True := by
  have hloop : Outcome (intMax ≤ maxHops ∧ 2 ^ 31 ≤ g.numVertices) (fun n =>
      whileLoop (fun s => !s.stopped && !s.pq.isEmpty) (step ord.neighbors maxHops) n
        { result := ∅, pq := [(0, source)], stopped := false }) _ :=
    outcome_whileLoop _ _ _ (Inv g.vertices) (measure ord.neighbors g.vertices) ?_ ?_
  · exact hloop.map (R := fun _ => True) (·.result) fun _ _ => trivial
  · intro s hs hne
    refine step_spec (fun u v hv => (ord.mem_neighbors.mp hv).mem_vertices.2) hs fun hnil => ?_
    rw [hnil] at hne
    exact absurd hne (by simp)
  · refine ⟨Finset.empty_subset _, fun e he => ?_⟩
    rw [List.mem_singleton.mp he]
    exact ⟨hsource, by simp⟩

end Dijkstra

/-- **Both analyzers terminate** on the graphs they can count the distances of. -/
theorem ReachabilityAnalyzer.outcome_reachableWithin (analyzer : ReachabilityAnalyzer)
    {g : DirectedGraph} (ord : g.Order) {source : Vertex} (hsource : source ∈ g.vertices)
    (maxHops : ℤ) :
    Outcome (analyzer = .dijkstra ∧ intMax ≤ maxHops ∧ 2 ^ 31 ≤ g.numVertices)
      (analyzer.reachableWithin ord source maxHops) fun _ => True := by
  cases analyzer with
  | bfs =>
    obtain ⟨s, hret, -⟩ := Bfs.returns_reachableWithin ord source maxHops (fun _ => True)
      (fun _ _ _ _ => trivial) trivial
    exact Or.inl ⟨s.result, hret, trivial⟩
  | dijkstra =>
    rcases Dijkstra.outcome_reachableWithin ord hsource maxHops with h | ⟨hbad, h⟩
    · exact Or.inl h
    · exact Or.inr ⟨⟨rfl, hbad⟩, h⟩
