/-
# Breadth-first search returns the distances

The invariant of the queue loop: the vertices met carry their distance, the
queue lists them in order of distance, never more than one apart, everything as
near as its front has been met, and every other vertex nearer than the limit
has had its neighbours met.
-/
import ZtMapper.Graph.Reachability
import ZtMapper.Lib.Distance

open Loop Unordered Distance

/-- `result` sends each vertex at most `maxHops` edges away from `source` to its
distance, and holds no other vertex. -/
def HoldsDistances (g : DirectedGraph) (source : Vertex) (maxHops : ℤ)
    (result : ReachabilityResult) : Prop :=
  ∀ v d, result.lookup v = some d ↔ ∃ n : ℕ, IsDist g.Edge source v n ∧ (n : ℤ) ≤ maxHops ∧ d = n

/-- There is one such map. -/
theorem HoldsDistances.unique {g : DirectedGraph} {source : Vertex} {maxHops : ℤ}
    {r r' : ReachabilityResult} (h : HoldsDistances g source maxHops r)
    (h' : HoldsDistances g source maxHops r') : r = r' := by
  refine Finmap.ext_lookup fun v => Option.ext fun d => ?_
  rw [h v d, h' v d]

namespace Bfs

/-! ## The loop over the neighbours -/

/-- The vertices the loop meets go to the back of the queue, one further away. -/
theorem foldl_visit_spec (d : ℤ) (nbrs : List Vertex) (s : State) :
    ∃ new, (nbrs.foldl (visit d) s).q = s.q ++ new ∧
      (∀ v, v ∈ new ↔ v ∈ nbrs ∧ v ∉ s.result) ∧
      ∀ v, (nbrs.foldl (visit d) s).result.lookup v
        = if v ∈ new then some (d + 1) else s.result.lookup v := by
  induction nbrs generalizing s with
  | nil => exact ⟨[], by simp⟩
  | cons u nbrs ih =>
    rw [List.foldl_cons, visit]
    -- a neighbour that has a distance is left out, also one that the loop has just met
    split_ifs with hu
    · obtain ⟨new, hq, hmem, hres⟩ := ih s
      refine ⟨new, hq, fun v => ?_, hres⟩
      rw [hmem v, List.mem_cons]
      constructor
      · rintro ⟨hv, hvs⟩
        exact ⟨Or.inr hv, hvs⟩
      · rintro ⟨rfl | hv, hvs⟩
        · exact absurd hu hvs
        · exact ⟨hv, hvs⟩
    · obtain ⟨new, hq, hmem, hres⟩ :=
        ih { result := s.result.insert u (d + 1), q := s.q ++ [u] }
      refine ⟨u :: new, ?_, fun v => ?_, fun v => ?_⟩
      · rw [hq]
        simp
      · rw [List.mem_cons, hmem v, Finmap.mem_insert, List.mem_cons]
        constructor
        · rintro (rfl | ⟨hv, hvs⟩)
          · exact ⟨Or.inl rfl, hu⟩
          · exact ⟨Or.inr hv, fun h => hvs (Or.inr h)⟩
        · rintro ⟨hv, hvs⟩
          by_cases huv : v = u
          · exact Or.inl huv
          · exact Or.inr ⟨hv.resolve_left huv, fun h => h.elim huv hvs⟩
      · rw [hres v, lookup_insert_eq]
        by_cases huv : v = u
        · rw [if_pos huv, if_pos (List.mem_cons.mpr (Or.inl huv)), ite_self]
        · rw [if_neg huv]
          simp only [List.mem_cons, huv, false_or]

/-! ## The invariant of the queue -/

variable {g : DirectedGraph} {source : Vertex} {k : ℕ}

/-- `v` is as far away as `u`, or one further. -/
def Follows (g : DirectedGraph) (source u v : Vertex) : Prop :=
  ∀ m n, IsDist g.Edge source u m → IsDist g.Edge source v n → m ≤ n ∧ n ≤ m + 1

/-- The invariant, for the limit `k`. -/
structure Inv (g : DirectedGraph) (source : Vertex) (k : ℕ) (s : State) : Prop where
  source_mem : source ∈ s.result
  sound : ∀ v d, s.result.lookup v = some d → ∃ n ≤ k, IsDist g.Edge source v n ∧ d = n
  queued : ∀ u ∈ s.q, u ∈ s.result
  sorted : s.q.Pairwise (Follows g source)
  complete : ∀ u q, s.q = u :: q → ∀ m, IsDist g.Edge source u m →
    ∀ v n, IsDist g.Edge source v n → n ≤ m → v ∈ s.result
  expanded : ∀ u ∈ s.result, u ∉ s.q → ∀ n, IsDist g.Edge source u n → n < k →
    ∀ v, g.Edge u v → v ∈ s.result

theorem Inv.exists_isDist {s : State} (h : Inv g source k s) {v : Vertex} (hv : v ∈ s.result) :
    ∃ n ≤ k, IsDist g.Edge source v n ∧ s.result.lookup v = some (n : ℤ) := by
  obtain ⟨d, hd⟩ := Finmap.mem_iff.mp hv
  obtain ⟨n, hn, hdist, rfl⟩ := h.sound v d hd
  exact ⟨n, hn, hdist, hd⟩

theorem inv_init : Inv g source k ⟨(∅ : ReachabilityResult).insert source 0, [source]⟩ where
  source_mem := Finmap.mem_insert.mpr (Or.inl rfl)
  sound := by
    intro v d hv
    rw [lookup_insert_eq] at hv
    split_ifs at hv with hvs
    · rw [hvs]
      exact ⟨0, Nat.zero_le k, isDist_self, (Option.some.inj hv).symm⟩
    · exact absurd hv (by simp)
  queued := by
    intro u hu
    rw [List.mem_singleton.mp hu]
    exact Finmap.mem_insert.mpr (Or.inl rfl)
  sorted := List.pairwise_singleton _ _
  complete := by
    intro u q hq m hm v n hn hle
    obtain rfl : source = u := (List.cons.inj hq).1
    obtain rfl : m = 0 := hm.unique isDist_self
    obtain rfl : n = 0 := Nat.le_zero.mp hle
    exact Finmap.mem_insert.mpr (Or.inl (isDist_zero_iff.mp hn))
  expanded := by
    intro u hu huq
    rcases Finmap.mem_insert.mp hu with rfl | hu
    · exact absurd List.mem_cons_self huq
    · exact absurd hu Finmap.notMem_empty

/-- Everything as near as the next front of the queue is met, once everything as
near as the last one is and that one has been expanded. -/
theorem complete_of_expanded {s : State} {m : ℕ}
    (sound : ∀ v d, s.result.lookup v = some d → ∃ n ≤ k, IsDist g.Edge source v n ∧ d = n)
    (queued : ∀ u ∈ s.q, u ∈ s.result) (sorted : s.q.Pairwise (Follows g source))
    (expanded : ∀ u ∈ s.result, u ∉ s.q → ∀ n, IsDist g.Edge source u n → n < k →
      ∀ v, g.Edge u v → v ∈ s.result)
    (hbelow : ∀ v n, IsDist g.Edge source v n → n ≤ m → v ∈ s.result)
    (hnext : ∀ u ∈ s.q, ∀ n, IsDist g.Edge source u n → n ≤ m + 1) :
    ∀ u q, s.q = u :: q → ∀ m, IsDist g.Edge source u m →
      ∀ v n, IsDist g.Edge source v n → n ≤ m → v ∈ s.result := by
  intro u q hq m' hm' v n hn hle
  have huq : u ∈ s.q := hq ▸ List.mem_cons_self
  obtain ⟨d, hd⟩ := Finmap.mem_iff.mp (queued u huq)
  obtain ⟨m'', hk, hdist, -⟩ := sound u d hd
  rw [hdist.unique hm'] at hk
  by_cases hnm : n ≤ m
  · exact hbelow v n hn hnm
  · have hm := hnext u huq m' hm'
    obtain rfl : n = m + 1 := by omega
    obtain ⟨p, hp, e⟩ := hn.exists_pred
    refine expanded p (hbelow p m hp le_rfl) (fun hpq => ?_) m hp (by omega) v e
    -- everything queued is at least as far away as the front
    rw [hq, List.pairwise_cons] at sorted
    rw [hq] at hpq
    rcases List.mem_cons.mp hpq with rfl | hpq
    · have := hp.unique hm'
      omega
    · have := (sorted.1 p hpq m' m hm' hp).1
      omega

/-- A vertex at the limit is not expanded. -/
theorem Inv.skip {result : ReachabilityResult} {u : Vertex} {q : List Vertex} {m : ℕ}
    (h : Inv g source k ⟨result, u :: q⟩) (hm : IsDist g.Edge source u m) (hk : k ≤ m) :
    Inv g source k ⟨result, q⟩ := by
  have hsorted := List.pairwise_cons.mp h.sorted
  have hqueued : ∀ v ∈ q, v ∈ result := fun v hv => h.queued v (List.mem_cons_of_mem u hv)
  have hexp : ∀ v ∈ result, v ∉ q → ∀ n, IsDist g.Edge source v n → n < k →
      ∀ w, g.Edge v w → w ∈ result := by
    intro v hv hvq n hn hnk
    refine h.expanded v hv (fun hmem => ?_) n hn hnk
    rcases List.mem_cons.mp hmem with rfl | hmem
    · have := hm.unique hn
      omega
    · exact hvq hmem
  exact
    { source_mem := h.source_mem
      sound := h.sound
      queued := hqueued
      sorted := hsorted.2
      complete := complete_of_expanded h.sound hqueued hsorted.2 hexp
        (fun v n => h.complete u q rfl m hm v n)
        fun v hv n hn => (hsorted.1 v hv m n hm hn).2
      expanded := hexp }

/-- The vertices with a distance after the loop are those it meets and those before. -/
theorem mem_iff_of_lookup {result result' : ReachabilityResult} {new : List Vertex} {d : ℤ}
    (hres : ∀ v, result'.lookup v = if v ∈ new then some d else result.lookup v) (v : Vertex) :
    v ∈ result' ↔ v ∈ new ∨ v ∈ result := by
  rw [Finmap.mem_iff, Finmap.mem_iff]
  constructor
  · rintro ⟨d, hd⟩
    rw [hres v] at hd
    split_ifs at hd with hvn
    · exact Or.inl hvn
    · exact Or.inr ⟨d, hd⟩
  · intro hv
    by_cases hvn : v ∈ new
    · exact ⟨_, by rw [hres v, if_pos hvn]⟩
    · obtain ⟨d, hd⟩ := hv.resolve_left hvn
      exact ⟨d, by rw [hres v, if_neg hvn, hd]⟩

/-- A vertex that is met for the first time is one further away than `u`. -/
theorem Inv.isDist_of_notMem {result : ReachabilityResult} {u v : Vertex} {q : List Vertex} {m : ℕ}
    (h : Inv g source k ⟨result, u :: q⟩) (hm : IsDist g.Edge source u m) (huv : g.Edge u v)
    (hv : v ∉ result) : IsDist g.Edge source v (m + 1) := by
  obtain ⟨n, hle, hn⟩ := (hm.1.concat huv).exists_isDist
  rcases Nat.lt_or_ge m n with hlt | hge
  · rwa [show m + 1 = n by omega]
  · exact absurd (h.complete u q rfl m hm v n hn hge) hv

/-- Expanding a vertex nearer than the limit. -/
theorem Inv.expand {result : ReachabilityResult} {u : Vertex} {q nbrs : List Vertex} {m : ℕ}
    (h : Inv g source k ⟨result, u :: q⟩) (hm : IsDist g.Edge source u m) (hk : m < k)
    (hnbrs : ∀ v, v ∈ nbrs ↔ g.Edge u v) :
    Inv g source k (nbrs.foldl (visit (m : ℤ)) ⟨result, q⟩) := by
  obtain ⟨new, hq, hnew, hres⟩ := foldl_visit_spec (m : ℤ) nbrs ⟨result, q⟩
  set s' := nbrs.foldl (visit (m : ℤ)) ⟨result, q⟩ with hs'
  dsimp only at hq hnew hres
  have hmem := mem_iff_of_lookup hres
  have hdist : ∀ v ∈ new, IsDist g.Edge source v (m + 1) := by
    intro v hv
    obtain ⟨hvn, hvr⟩ := (hnew v).mp hv
    exact h.isDist_of_notMem hm ((hnbrs v).mp hvn) hvr
  have hsound : ∀ v d, s'.result.lookup v = some d →
      ∃ n ≤ k, IsDist g.Edge source v n ∧ d = n := by
    intro v d hv
    rw [hres v] at hv
    split_ifs at hv with hvn
    · exact ⟨m + 1, hk, hdist v hvn, by rw [← Option.some.inj hv]; push_cast; rfl⟩
    · exact h.sound v d hv
  have hqueued : ∀ v ∈ s'.q, v ∈ s'.result := by
    intro v hv
    rw [hq, List.mem_append] at hv
    rw [hmem v]
    exact hv.symm.imp_right fun hv => h.queued v (List.mem_cons_of_mem u hv)
  have hcons := List.pairwise_cons.mp h.sorted
  have hsorted : s'.q.Pairwise (Follows g source) := by
    rw [hq, List.pairwise_append]
    refine ⟨hcons.2, ?_, fun v hv w hw a b ha hb => ?_⟩
    · refine List.pairwise_of_forall_mem_list fun v hv w hw a b ha hb => ?_
      rw [ha.unique (hdist v hv), hb.unique (hdist w hw)]
      omega
    · have := hcons.1 v hv m a hm ha
      rw [hb.unique (hdist w hw)]
      omega
  have hexp : ∀ v ∈ s'.result, v ∉ s'.q → ∀ n, IsDist g.Edge source v n → n < k →
      ∀ w, g.Edge v w → w ∈ s'.result := by
    intro v hv hvq n hn hnk w e
    rw [hq, List.mem_append, not_or] at hvq
    have hvr : v ∈ result := ((hmem v).mp hv).resolve_left hvq.2
    rw [hmem w]
    by_cases hvu : v = u
    · by_cases hwr : w ∈ result
      · exact Or.inr hwr
      · exact Or.inl ((hnew w).mpr ⟨(hnbrs w).mpr (hvu ▸ e), hwr⟩)
    · right
      refine h.expanded v hvr (fun hvmem => ?_) n hn hnk w e
      exact (List.mem_cons.mp hvmem).elim hvu hvq.1
  exact
    { source_mem := (hmem source).mpr (Or.inr h.source_mem)
      sound := hsound
      queued := hqueued
      sorted := hsorted
      complete := by
        refine complete_of_expanded (m := m) hsound hqueued hsorted hexp (fun v n hn hle => ?_)
          fun v hv n hn => ?_
        · exact (hmem v).mpr (Or.inr (h.complete u q rfl m hm v n hn hle))
        · rw [hq, List.mem_append] at hv
          rcases hv with hv | hv
          · exact (hcons.1 v hv m n hm hn).2
          · exact (hn.unique (hdist v hv)).le
      expanded := hexp }

/-- **One round keeps the invariant.** -/
theorem Inv.step (ord : g.Order) {maxHops : ℤ} {s s' : State}
    (h : Inv g source maxHops.toNat s) (hs : step ord.neighbors maxHops s = some s') :
    Inv g source maxHops.toNat s' := by
  obtain ⟨result, q⟩ := s
  cases q with
  | nil => exact absurd hs (by simp [Bfs.step])
  | cons u q =>
    obtain ⟨m, -, hm, hlook⟩ := h.exists_isDist (h.queued u List.mem_cons_self)
    rw [Bfs.step] at hs
    dsimp only at hs hlook
    rw [hlook, Option.getD_some] at hs
    split_ifs at hs with hd
    · rw [← Option.some.inj hs]
      exact h.skip hm (Int.toNat_le.mpr hd)
    · rw [← Option.some.inj hs]
      exact h.expand hm (Int.lt_toNat.mpr (not_le.mp hd)) fun v => ord.mem_neighbors

/-- An empty queue leaves the distances up to the limit. -/
theorem Inv.holdsDistances {s : State} (h : Inv g source k s) (hq : s.q = []) :
    HoldsDistances g source k s.result := by
  have hclosed : ∀ u n, u ∈ s.result → IsDist g.Edge source u n → n < k →
      ∀ v, g.Edge u v → v ∈ s.result := fun u n hu =>
    h.expanded u hu (by rw [hq]; exact List.not_mem_nil) n
  intro v d
  constructor
  · intro hv
    obtain ⟨n, hn, hdist, rfl⟩ := h.sound v d hv
    exact ⟨n, hdist, by exact_mod_cast hn, rfl⟩
  · rintro ⟨n, hdist, hn, rfl⟩
    have hv : v ∈ s.result := hdist.mem_of_closed (S := (· ∈ s.result)) h.source_mem hclosed
      (by exact_mod_cast hn)
    obtain ⟨n', -, hdist', hlook⟩ := h.exists_isDist hv
    rw [hlook, hdist.unique hdist']

/-- **Breadth-first search returns the distances** up to `max_hops`, and no limit
below `0` keeps the source out. -/
theorem returns_toNat (ord : g.Order) (source : Vertex) (maxHops : ℤ) :
    ∃ r, Returns (reachableWithin ord source maxHops) r ∧
      HoldsDistances g source maxHops.toNat r := by
  obtain ⟨s, hret, hs, hq⟩ := returns_reachableWithin ord source maxHops
    (Inv g source maxHops.toNat) (fun s s' h => h.step ord) inv_init
  exact ⟨s.result, hret, hs.holdsDistances hq⟩

/-- **`BFSReachability::reachable_within` is exact** for every limit that is not
negative. -/
theorem reachableWithin_exact (g : DirectedGraph) (ord : g.Order) (source : Vertex)
    (maxHops : Int32) (hmax : 0 ≤ maxHops.toInt) :
    ∃ r, Returns (reachableWithin ord source maxHops.toInt) r ∧
      HoldsDistances g source maxHops.toInt r := by
  obtain ⟨r, hret, hr⟩ := returns_toNat ord source maxHops.toInt
  rw [Int.toNat_of_nonneg hmax] at hr
  exact ⟨r, hret, hr⟩

/-- The cycle `1 → 2 → 3 → 1`, met in ascending order. -/
theorem reachableWithin_exact_cycle :
    ∃ r, Returns (reachableWithin (DirectedGraph.Order.ofVertices
        (.build [.addEdge 1 2, .addEdge 2 3, .addEdge 3 1]) [1, 2, 3] (by decide)) 1 100) r ∧
      HoldsDistances (.build [.addEdge 1 2, .addEdge 2 3, .addEdge 3 1]) 1 100 r :=
  reachableWithin_exact _ _ 1 100 (by decide)

end Bfs
