/-
# Dijkstra's algorithm returns the distances, short of an overflow

The invariant of the heap loop: settled vertices carry their distance, every
heap entry is the length of a walk, and every edge from a settled vertex to one
that is not has its entry.  So the least entry is a distance, and what the
`break` leaves behind is out of range.  The sum `d_u + 1` is formed before it is
compared with `max_hops`; breadth-first search compares first.
-/
import ZtMapper.Graph.BfsCorrect

open Loop Unordered Distance

namespace Dijkstra

/-! ## The heap -/

instance : IsTrans (ℤ × Vertex) EntryLe where
  trans := by
    rintro a b c (hab | ⟨hab, hab'⟩) (hbc | ⟨hbc, hbc'⟩)
    · exact Or.inl (hab.trans hbc)
    · exact Or.inl (hbc ▸ hab)
    · exact Or.inl (hab ▸ hbc)
    · exact Or.inr ⟨hab.trans hbc, UInt32.le_trans hab' hbc'⟩

instance : Std.Total EntryLe where
  total := by
    intro a b
    rcases lt_trichotomy a.1 b.1 with h | h | h
    · exact Or.inl (Or.inl h)
    · exact (UInt32.le_total a.2 b.2).imp (fun h' => Or.inr ⟨h, h'⟩) fun h' => Or.inr ⟨h.symm, h'⟩
    · exact Or.inr (Or.inl h)

theorem EntryLe.fst_le {a b : ℤ × Vertex} (h : EntryLe a b) : a.1 ≤ b.1 := by
  rcases h with h | h
  · exact h.le
  · exact h.1.le

/-! ## The loop over the neighbours -/

/-- Relaxing the edges of a vertex at distance `dU` pushes the neighbours that
are not settled and are in range, and keeps the heap sorted. -/
theorem foldlM_relax_spec {maxHops dU : ℤ} {l : List Vertex} {s s' : State}
    (h : l.foldlM (relax maxHops dU) s = some s') :
    s'.result = s.result ∧ s'.stopped = s.stopped ∧ (l ≠ [] → dU < intMax) ∧
      (s.pq.Pairwise EntryLe → s'.pq.Pairwise EntryLe) ∧
      ∀ e, e ∈ s'.pq ↔ e ∈ s.pq ∨ (e.1 = dU + 1 ∧ dU + 1 ≤ maxHops ∧ e.2 ∈ l ∧ e.2 ∉ s.result) := by
  induction l generalizing s with
  | nil =>
    rw [List.foldlM_nil] at h
    obtain rfl : s = s' := Option.some.inj h
    simp
  | cons v l ih =>
    rw [List.foldlM_cons, relax, Option.bind_eq_bind, Option.bind_eq_some_iff] at h
    obtain ⟨t, ht, h⟩ := h
    obtain ⟨hres, hstop, -, hsort, hmem⟩ := ih h
    -- a sum that overflows ends the loop; a neighbour is pushed, or left out
    split_ifs at ht with hlt hpush
    · rw [← Option.some.inj ht] at hres hstop hsort hmem
      refine ⟨hres, hstop, fun _ => hlt, fun hs => hsort (hs.orderedInsert _ _), fun e => ?_⟩
      rw [hmem e, List.mem_orderedInsert, List.mem_cons]
      constructor
      · rintro ((rfl | he) | ⟨h1, h2, h3, h4⟩)
        · exact Or.inr ⟨rfl, hpush.2, Or.inl rfl, hpush.1⟩
        · exact Or.inl he
        · exact Or.inr ⟨h1, h2, Or.inr h3, h4⟩
      · rintro (he | ⟨h1, h2, h3 | h3, h4⟩)
        · exact Or.inl (Or.inr he)
        · exact Or.inl (Or.inl (Prod.ext h1 h3))
        · exact Or.inr ⟨h1, h2, h3, h4⟩
    · rw [← Option.some.inj ht] at hres hstop hsort hmem
      refine ⟨hres, hstop, fun _ => hlt, hsort, fun e => ?_⟩
      rw [hmem e, List.mem_cons]
      constructor
      · rintro (he | ⟨h1, h2, h3, h4⟩)
        · exact Or.inl he
        · exact Or.inr ⟨h1, h2, Or.inr h3, h4⟩
      · rintro (he | ⟨h1, h2, h3 | h3, h4⟩)
        · exact Or.inl he
        · exact absurd ⟨h3 ▸ h4, h2⟩ hpush
        · exact Or.inr ⟨h1, h2, h3, h4⟩

/-- Relaxing fails on a sum that is not an `int`. -/
theorem foldlM_relax_eq_none {maxHops dU : ℤ} {l : List Vertex} {s : State}
    (h : l.foldlM (relax maxHops dU) s = none) : l ≠ [] ∧ intMax ≤ dU := by
  by_contra hcon
  rw [not_and_or, not_not, not_le] at hcon
  rcases hcon with rfl | hlt
  · exact absurd h (by simp)
  · obtain ⟨s', hs', -⟩ := foldlM_relax maxHops hlt l s
    rw [h] at hs'
    exact absurd hs' (by simp)

/-! ## The invariant of the heap -/

variable {g : DirectedGraph} {source : Vertex} {maxHops : ℤ}

/-- `d_u + 1` overflows for a vertex within range. -/
def DistanceOverflows (g : DirectedGraph) (source : Vertex) (maxHops : ℤ) : Prop :=
  maxHops = intMax ∧ ∃ u v, IsDist g.Edge source u intMax.toNat ∧ g.Edge u v

/-- While the loop runs: entries are lengths of walks, and the edges out of the
settled vertices have theirs. -/
structure Active (g : DirectedGraph) (source : Vertex) (maxHops : ℤ)
    (result : ReachabilityResult) (pq : List (ℤ × Vertex)) : Prop where
  walked : ∀ e ∈ pq, ∃ n : ℕ, Walk g.Edge source n e.2 ∧ e.1 = n
  sorted : pq.Pairwise EntryLe
  start : source ∈ result ∨ ((0 : ℤ), source) ∈ pq
  pushed : ∀ u ∈ result, ∀ n : ℕ, IsDist g.Edge source u n → (n : ℤ) + 1 ≤ maxHops →
    ∀ v, g.Edge u v → v ∉ result → ((n : ℤ) + 1, v) ∈ pq

/-- Settled vertices carry their distance, and none of them overflowed. -/
def Sound (g : DirectedGraph) (source : Vertex) (maxHops : ℤ) (result : ReachabilityResult) :
    Prop :=
  ∀ v d, result.lookup v = some d → ∃ n : ℕ, IsDist g.Edge source v n ∧ (n : ℤ) ≤ maxHops ∧
    d = n ∧ (intMax ≤ n → ∀ w, ¬ g.Edge v w)

/-- Everything in range is settled. -/
def Settled (g : DirectedGraph) (source : Vertex) (maxHops : ℤ) (result : ReachabilityResult) :
    Prop :=
  ∀ v n, IsDist g.Edge source v n → (n : ℤ) ≤ maxHops → v ∈ result

/-- The invariant of the loop. -/
structure Correct (g : DirectedGraph) (source : Vertex) (maxHops : ℤ) (s : State) : Prop where
  sound : Sound g source maxHops s.result
  active : s.stopped = false → Active g source maxHops s.result s.pq
  settled : s.stopped = true → Settled g source maxHops s.result

/-- A vertex in range that is not settled has an entry before it in the heap. -/
theorem Active.exists_entry {result : ReachabilityResult} {pq : List (ℤ × Vertex)}
    (h : Active g source maxHops result pq) {v : Vertex} {n : ℕ}
    (hn : IsDist g.Edge source v n) (hle : (n : ℤ) ≤ maxHops) (hv : v ∉ result) :
    ∃ e ∈ pq, e.1 ≤ n := by
  rcases h.start with hs | hs
  · obtain ⟨u, w, m, hu, e, hur, hwr, hm⟩ := hn.exists_frontier (S := (· ∈ result)) hs hv
    exact ⟨_, h.pushed u hur m hu (by omega) w e hwr, by dsimp only; omega⟩
  · exact ⟨_, hs, by dsimp only; omega⟩

/-- **The least entry of the heap is a distance**, if its vertex is not settled. -/
theorem Active.isDist_head {result : ReachabilityResult} {d : ℤ} {u : Vertex}
    {pq : List (ℤ × Vertex)} (h : Active g source maxHops result ((d, u) :: pq))
    (hd : d ≤ maxHops) (hu : u ∉ result) : ∃ n : ℕ, IsDist g.Edge source u n ∧ d = n := by
  obtain ⟨n, hwalk, hdn⟩ := h.walked _ List.mem_cons_self
  dsimp only at hwalk hdn
  obtain ⟨m, hmn, hm⟩ := hwalk.exists_isDist
  obtain ⟨e, he, hle⟩ := h.exists_entry hm (by omega) hu
  have hdle : d ≤ e.1 := by
    rcases List.mem_cons.mp he with rfl | he
    · exact le_rfl
    · exact ((List.pairwise_cons.mp h.sorted).1 e he).fst_le
  obtain rfl : m = n := by omega
  exact ⟨m, hm, hdn⟩

/-- Leaving the loop by `break` loses nothing in range. -/
theorem Active.settled_of_lt {result : ReachabilityResult} {d : ℤ} {u : Vertex}
    {pq : List (ℤ × Vertex)} (h : Active g source maxHops result ((d, u) :: pq))
    (hd : maxHops < d) : Settled g source maxHops result := by
  intro v n hn hle
  by_contra hv
  obtain ⟨e, he, hen⟩ := h.exists_entry hn hle hv
  have hdle : d ≤ e.1 := by
    rcases List.mem_cons.mp he with rfl | he
    · exact le_rfl
    · exact ((List.pairwise_cons.mp h.sorted).1 e he).fst_le
  omega

/-- A stale entry is dropped. -/
theorem Active.drop_stale {result : ReachabilityResult} {d : ℤ} {u : Vertex}
    {pq : List (ℤ × Vertex)} (h : Active g source maxHops result ((d, u) :: pq))
    (hu : u ∈ result) : Active g source maxHops result pq where
  walked := fun e he => h.walked e (List.mem_cons_of_mem _ he)
  sorted := (List.pairwise_cons.mp h.sorted).2
  start := by
    rcases h.start with hs | hs
    · exact Or.inl hs
    · rcases List.mem_cons.mp hs with heq | hs
      · exact Or.inl ((Prod.mk.inj heq).2 ▸ hu)
      · exact Or.inr hs
  pushed := by
    intro v hv n hn hle w e hw
    rcases List.mem_cons.mp (h.pushed v hv n hn hle w e hw) with heq | hmem
    · exact absurd ((Prod.mk.inj heq).2 ▸ hu) hw
    · exact hmem

/-- Settling the vertex of the least entry, with the entries its edges push. -/
theorem Active.settle {result : ReachabilityResult} {n : ℕ} {u : Vertex}
    {pq pq' : List (ℤ × Vertex)} (h : Active g source maxHops result (((n : ℤ), u) :: pq))
    (hn : IsDist g.Edge source u n) (hsort : pq'.Pairwise EntryLe)
    (hmem : ∀ e, e ∈ pq' ↔ e ∈ pq ∨ (e.1 = (n : ℤ) + 1 ∧ (n : ℤ) + 1 ≤ maxHops ∧
      g.Edge u e.2 ∧ e.2 ∉ result.insert u (n : ℤ))) :
    Active g source maxHops (result.insert u (n : ℤ)) pq' where
  walked := by
    intro e he
    rcases (hmem e).mp he with he | ⟨h1, -, h3, -⟩
    · exact h.walked e (List.mem_cons_of_mem _ he)
    · exact ⟨n + 1, hn.1.concat h3, by rw [h1]; push_cast; rfl⟩
  sorted := hsort
  start := by
    rcases h.start with hs | hs
    · exact Or.inl (Finmap.mem_insert.mpr (Or.inr hs))
    · rcases List.mem_cons.mp hs with heq | hs
      · exact Or.inl (Finmap.mem_insert.mpr (Or.inl (Prod.mk.inj heq).2))
      · exact Or.inr ((hmem _).mpr (Or.inl hs))
  pushed := by
    intro v hv m hm hle w e hw
    rw [hmem]
    by_cases hvu : v = u
    · obtain rfl : m = n := hm.unique (hvu ▸ hn)
      exact Or.inr ⟨rfl, hle, hvu ▸ e, hw⟩
    · have hvr : v ∈ result := (Finmap.mem_insert.mp hv).resolve_left hvu
      have hwr : w ∉ result := fun hmem => hw (Finmap.mem_insert.mpr (Or.inr hmem))
      rcases List.mem_cons.mp (h.pushed v hvr m hm hle w e hwr) with heq | hmem
      · exact absurd (Finmap.mem_insert.mpr (Or.inl (Prod.mk.inj heq).2)) hw
      · exact Or.inl hmem

theorem Sound.insert {result : ReachabilityResult} (h : Sound g source maxHops result)
    {u : Vertex} {n : ℕ} (hn : IsDist g.Edge source u n) (hle : (n : ℤ) ≤ maxHops)
    (hmax : intMax ≤ n → ∀ w, ¬ g.Edge u w) :
    Sound g source maxHops (result.insert u (n : ℤ)) := by
  intro v d hv
  rw [lookup_insert_eq] at hv
  split_ifs at hv with hvu
  · rw [hvu, ← Option.some.inj hv]
    exact ⟨n, hn, hle, rfl, hmax⟩
  · exact h v d hv

theorem correct_init :
    Correct g source maxHops { result := ∅, pq := [(0, source)], stopped := false } where
  sound := fun v d hv => absurd hv (by simp)
  active := fun _ =>
    { walked := by
        intro e he
        rw [List.mem_singleton.mp he]
        exact ⟨0, .nil, rfl⟩
      sorted := List.pairwise_singleton _ _
      start := Or.inr List.mem_cons_self
      pushed := fun u hu => absurd hu Finmap.notMem_empty }
  settled := fun h => absurd h (by simp)

/-- **One round keeps the invariant**, or overflows. -/
theorem Correct.step (ord : g.Order) (hmax : maxHops ≤ intMax) {s : State}
    (h : Correct g source maxHops s) (hrun : s.stopped = false) (hne : s.pq ≠ []) :
    (DistanceOverflows g source maxHops ∧ step ord.neighbors maxHops s = none) ∨
      ∃ s', step ord.neighbors maxHops s = some s' ∧ Correct g source maxHops s' := by
  obtain ⟨result, pq, stopped⟩ := s
  cases pq with
  | nil => exact absurd rfl hne
  | cons e pq =>
    obtain ⟨d, u⟩ := e
    obtain rfl : stopped = false := hrun
    have hact := h.active rfl
    rw [Dijkstra.step]
    dsimp only
    -- the loop ends at the head, or passes over a stale head, or settles it
    split_ifs with hbreak hstale
    · refine Or.inr ⟨_, rfl, h.sound, fun hf => absurd hf (by simp), fun _ => ?_⟩
      exact hact.settled_of_lt hbreak
    · exact Or.inr ⟨_, rfl, h.sound, fun _ => hact.drop_stale hstale, h.settled⟩
    · obtain ⟨n, hn, rfl⟩ := hact.isDist_head (not_lt.mp hbreak) hstale
      have hle : (n : ℤ) ≤ maxHops := not_lt.mp hbreak
      cases hfold : (ord.neighbors u).foldlM (relax maxHops n)
          ⟨result.insert u (n : ℤ), pq, false⟩ with
      | none =>
        obtain ⟨hnil, hover⟩ := foldlM_relax_eq_none hfold
        obtain ⟨v, hv⟩ := List.exists_mem_of_ne_nil _ hnil
        have hn' : (n : ℤ) = intMax := le_antisymm (hle.trans hmax) hover
        refine Or.inl ⟨⟨le_antisymm hmax (hn' ▸ hle), u, v, ?_, ord.mem_neighbors.mp hv⟩, rfl⟩
        rwa [← hn', Int.toNat_natCast]
      | some s' =>
        obtain ⟨hres, hstop, hlt, hsort, hmem⟩ := foldlM_relax_spec hfold
        dsimp only at hres hstop hsort hmem
        refine Or.inr ⟨s', rfl, ?_, fun _ => ?_, fun ht => ?_⟩
        · rw [hres]
          refine h.sound.insert hn hle fun hge w e => ?_
          have := hlt (List.ne_nil_of_mem (ord.mem_neighbors.mpr e))
          omega
        · rw [hres]
          refine hact.settle hn (hsort (List.pairwise_cons.mp hact.sorted).2) fun e => ?_
          rw [hmem e, ord.mem_neighbors]
        · rw [hstop] at ht
          exact absurd ht (by simp)

/-- A loop that is over leaves the distances, and did not overflow. -/
theorem Correct.holdsDistances {s : State} (h : Correct g source maxHops s)
    (hend : s.stopped = true ∨ s.pq = []) :
    HoldsDistances g source maxHops s.result ∧ ¬ DistanceOverflows g source maxHops := by
  have hsettled : Settled g source maxHops s.result := by
    cases hstop : s.stopped with
    | true => exact h.settled hstop
    | false =>
      intro v n hn hle
      by_contra hv
      obtain ⟨e, he, -⟩ := (h.active hstop).exists_entry hn hle hv
      rw [hend.resolve_left (by rw [hstop]; simp)] at he
      exact absurd he List.not_mem_nil
  constructor
  · intro v d
    constructor
    · intro hv
      obtain ⟨n, hn, hle, hd, -⟩ := h.sound v d hv
      exact ⟨n, hn, hle, hd⟩
    · rintro ⟨n, hn, hle, rfl⟩
      obtain ⟨d, hd⟩ := Finmap.mem_iff.mp (hsettled v n hn hle)
      obtain ⟨m, hm, -, rfl, -⟩ := h.sound v d hd
      rw [hd, hm.unique hn]
  · rintro ⟨hmax, u, v, hu, e⟩
    have hcast : ((intMax.toNat : ℕ) : ℤ) = intMax := Int.toNat_of_nonneg (by decide)
    obtain ⟨d, hd⟩ := Finmap.mem_iff.mp (hsettled u _ hu (by rw [hcast, hmax]))
    obtain ⟨n, hn, -, -, hover⟩ := h.sound u d hd
    exact hover (by rw [hn.unique hu, hcast]) v e

/-- **Dijkstra's algorithm returns the distances** up to `max_hops`, unless one of
them overflows. -/
theorem outcome_holdsDistances (ord : g.Order) (source : Vertex) (hmax : maxHops ≤ intMax) :
    Outcome (DistanceOverflows g source maxHops) (reachableWithin ord source maxHops) fun r =>
      HoldsDistances g source maxHops r ∧ ¬ DistanceOverflows g source maxHops := by
  have hloop := outcome_whileLoop (fun s => !s.stopped && !s.pq.isEmpty)
    (step ord.neighbors maxHops) (DistanceOverflows g source maxHops)
    (fun s => Correct g source maxHops s ∧ Inv (insert source g.vertices) s)
    (measure ord.neighbors (insert source g.vertices))
    (s := { result := ∅, pq := [(0, source)], stopped := false }) ?_ ?_
  · refine hloop.map (R := fun r => HoldsDistances g source maxHops r ∧
      ¬ DistanceOverflows g source maxHops) (·.result) fun s ⟨⟨hs, _⟩, hcond⟩ => ?_
    refine hs.holdsDistances ?_
    cases hstop : s.stopped with
    | true => exact Or.inl rfl
    | false =>
      rw [hstop] at hcond
      exact Or.inr (by simpa using hcond)
  · intro s ⟨hs, hinv⟩ hcond
    rw [Bool.and_eq_true, Bool.not_eq_true', Bool.not_eq_true'] at hcond
    have hne : s.pq ≠ [] := fun hnil => by
      rw [hnil] at hcond
      exact absurd hcond.2 (by simp)
    rcases hs.step ord hmax hcond.1 hne with hover | ⟨s', heq, hs'⟩
    · exact Or.inl hover
    · have hclosed : ∀ u, ∀ v ∈ ord.neighbors u, v ∈ insert source g.vertices := fun u v hv =>
        Finset.mem_insert_of_mem (ord.mem_neighbors.mp hv).mem_vertices.2
      -- the step that keeps the distances is the one that decreases the measure
      rcases step_spec hclosed hinv hne with ⟨-, hnone⟩ | ⟨s'', heq', hinv', hlt⟩
      · rw [heq] at hnone
        exact absurd hnone (by simp)
      · obtain rfl : s' = s'' := Option.some.inj (heq.symm.trans heq')
        exact Or.inr ⟨s', heq, ⟨hs', hinv'⟩, hlt⟩
  · refine ⟨correct_init, Finset.empty_subset _, fun e he => ?_⟩
    rw [List.mem_singleton.mp he]
    exact ⟨Finset.mem_insert_self _ _, by simp⟩

theorem toInt_le_intMax (maxHops : Int32) : maxHops.toInt ≤ intMax := by
  have := maxHops.toInt_lt
  rw [intMax]
  omega

/-- **`DijkstraReachability::reachable_within` is exact** for every limit,
negative ones included, except where `d_u + 1` overflows. -/
theorem reachableWithin_exact_iff (g : DirectedGraph) (ord : g.Order) (source : Vertex)
    (maxHops : Int32) :
    (∃ r, Returns (reachableWithin ord source maxHops.toInt) r ∧
      HoldsDistances g source maxHops.toInt r) ↔ ¬ DistanceOverflows g source maxHops.toInt := by
  have hout := outcome_holdsDistances ord source (toInt_le_intMax maxHops)
  constructor
  · rintro ⟨r, hret, -⟩
    exact (hout.of_returns hret).2
  · intro hsafe
    obtain ⟨r, hret, hr, -⟩ := hout.returns hsafe
    exact ⟨r, hret, hr⟩

/-! ## A chain of `2^31` edges -/

/-- The calls that add the edges `0 → 1 → … → n`. -/
def chain (n : ℕ) : List DirectedGraph.Op :=
  (List.range n).map fun i => .addEdge (UInt32.ofNat i) (UInt32.ofNat (i + 1))

theorem edge_chain_iff {n : ℕ} {u v : Vertex} : (DirectedGraph.build (chain n)).Edge u v ↔
    ∃ i < n, u = UInt32.ofNat i ∧ v = UInt32.ofNat (i + 1) := by
  induction n with
  | zero =>
    constructor
    · intro h
      exact absurd h (Finset.notMem_empty v)
    · rintro ⟨i, hi, -⟩
      exact absurd hi (Nat.not_lt_zero i)
  | succ n ih =>
    have hbuild : DirectedGraph.build (chain (n + 1))
        = (DirectedGraph.build (chain n)).addEdge (UInt32.ofNat n) (UInt32.ofNat (n + 1)) := by
      rw [DirectedGraph.build, chain, List.range_succ, List.map_append, List.foldl_append]
      rfl
    rw [hbuild, DirectedGraph.edge_addEdge, ih]
    constructor
    · rintro (h | ⟨i, hi, h⟩)
      · exact ⟨n, Nat.lt_succ_self n, h⟩
      · exact ⟨i, Nat.lt_succ_of_lt hi, h⟩
    · rintro ⟨i, hi, h⟩
      rcases Nat.lt_succ_iff_lt_or_eq.mp hi with hi | rfl
      · exact Or.inr ⟨i, hi, h⟩
      · exact Or.inl h

theorem ofNat_injOn {i j : ℕ} (hi : i < 2 ^ 32) (hj : j < 2 ^ 32)
    (h : UInt32.ofNat i = UInt32.ofNat j) : i = j := by
  have := congrArg UInt32.toNat h
  rwa [UInt32.toNat_ofNat_of_lt' hi, UInt32.toNat_ofNat_of_lt' hj] at this

/-- The only walks from `0` follow the chain. -/
theorem walk_chain_iff {n m : ℕ} (hn : n < 2 ^ 32) {v : Vertex} :
    Walk (DirectedGraph.build (chain n)).Edge 0 m v ↔ m ≤ n ∧ v = UInt32.ofNat m := by
  induction m generalizing v with
  | zero => simp
  | succ m ih =>
    rw [walk_succ_iff]
    constructor
    · rintro ⟨u, hu, e⟩
      obtain ⟨hm, rfl⟩ := ih.mp hu
      obtain ⟨i, hi, hmi, rfl⟩ := edge_chain_iff.mp e
      obtain rfl : m = i := ofNat_injOn (by omega) (by omega) hmi
      exact ⟨hi, rfl⟩
    · rintro ⟨hm, rfl⟩
      exact ⟨UInt32.ofNat m, ih.mpr ⟨by omega, rfl⟩, edge_chain_iff.mpr ⟨m, hm, rfl, rfl⟩⟩

theorem isDist_chain {n m : ℕ} (hn : n < 2 ^ 32) (hm : m ≤ n) :
    IsDist (DirectedGraph.build (chain n)).Edge 0 (UInt32.ofNat m) m := by
  refine ⟨(walk_chain_iff hn).mpr ⟨hm, rfl⟩, fun k hk => ?_⟩
  obtain ⟨hkn, heq⟩ := (walk_chain_iff hn).mp hk
  exact (ofNat_injOn (by omega) (by omega) heq).le

theorem distanceOverflows_chain {n : ℕ} (hn : n < 2 ^ 32) (hmax : intMax.toNat < n) :
    DistanceOverflows (.build (chain n)) 0 intMax :=
  ⟨rfl, _, _, isDist_chain hn hmax.le, edge_chain_iff.mpr ⟨intMax.toNat, hmax, rfl, rfl⟩⟩

/-- On a chain of `2^31` edges a limit of `INT_MAX` overflows. -/
theorem not_reachableWithin_exact :
    ¬ ∀ ord : (DirectedGraph.build (chain (2 ^ 31))).Order,
      ∃ r, Returns (reachableWithin ord 0 (Int32.maxValue).toInt) r ∧
        HoldsDistances (.build (chain (2 ^ 31))) 0 (Int32.maxValue).toInt r := by
  intro h
  obtain ⟨ord⟩ := (inferInstance : Nonempty (DirectedGraph.build (chain (2 ^ 31))).Order)
  exact (reachableWithin_exact_iff _ ord 0 Int32.maxValue).mp (h ord)
    (distanceOverflows_chain (by decide) (by decide))

end Dijkstra

/-! ## The two analyzers -/

/-- **The registered analyzers are interchangeable** exactly for the limits that
are not negative, short of the overflow. -/
theorem ReachabilityAnalyzer.agree_iff (g : DirectedGraph) (ord ord' : g.Order) (source : Vertex)
    (maxHops : Int32) :
    (∃ r, Returns (ReachabilityAnalyzer.bfs.reachableWithin ord source maxHops.toInt) r ∧
      Returns (ReachabilityAnalyzer.dijkstra.reachableWithin ord' source maxHops.toInt) r) ↔
      0 ≤ maxHops.toInt ∧ ¬ Dijkstra.DistanceOverflows g source maxHops.toInt := by
  have hout := Dijkstra.outcome_holdsDistances ord' source (Dijkstra.toInt_le_intMax maxHops)
  obtain ⟨r, hbfs, hr⟩ := Bfs.returns_toNat ord source maxHops.toInt
  constructor
  · rintro ⟨r', hbfs', hdijkstra⟩
    obtain ⟨hr', hsafe⟩ := hout.of_returns hdijkstra
    refine ⟨?_, hsafe⟩
    -- the source itself tells a negative limit from `0`
    rw [hbfs'.unique hbfs] at hr'
    obtain ⟨n, -, hn, -⟩ := (hr' source 0).mp
      ((hr source 0).mpr ⟨0, isDist_self, by simp, by simp⟩)
    exact (Int.natCast_nonneg n).trans hn
  · rintro ⟨hmax, hsafe⟩
    obtain ⟨r', hdijkstra, hr', -⟩ := hout.returns hsafe
    rw [Int.toNat_of_nonneg hmax] at hr
    exact ⟨r, hbfs, hr'.unique hr ▸ hdijkstra⟩

/-- With `max_hops: -1` breadth-first search returns the source and Dijkstra's
algorithm nothing. -/
theorem ReachabilityAnalyzer.not_agree :
    ¬ ∃ r, Returns (ReachabilityAnalyzer.bfs.reachableWithin (DirectedGraph.Order.ofVertices
        (.build [.addEdge 1 2]) [1, 2] (by decide)) 1 (Int32.toInt (-1))) r ∧
      Returns (ReachabilityAnalyzer.dijkstra.reachableWithin (DirectedGraph.Order.ofVertices
        (.build [.addEdge 1 2]) [1, 2] (by decide)) 1 (Int32.toInt (-1))) r := by
  rw [ReachabilityAnalyzer.agree_iff]
  rintro ⟨h, -⟩
  exact absurd h (by decide)
