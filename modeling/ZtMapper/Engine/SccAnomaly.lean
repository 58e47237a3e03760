/-
# Alerts of the periodic SCC check

The check alerts when it finds more non-trivial components than at any earlier
check (`Reaches.watched`).  A component that is new is therefore reported exactly
when the number of components has grown over all of them (`scc_alerted_iff`); it
is missed when as many components have merged meanwhile (`not_scc_alerted`).
-/
import ZtMapper.Engine.Windows

open Frequency Loop Pipeline Scc Unordered

namespace Engine

variable {eng : Engine} {env : Env} {cfg : PipelineConfig} {s₀ s s' : State} {evt : NetworkEvent}
  {events : List NetworkEvent} {outs : List Output} {out : Output}

/-! ## The checks of a run -/

/-- The event number `i` is one of those with a check. -/
def IsCheck (cfg : PipelineConfig) (i : ℕ) : Prop :=
  ∃ period, sccPeriod cfg = some period ∧ UInt64.ofNat (i + 1) % period = 0

/-- The communication graph at the event number `i`. -/
def graphAt (events : List NetworkEvent) (i : ℕ) : DirectedGraph := graphOf (events.take (i + 1))

/-- The number of non-trivial components at the event number `i`. -/
noncomputable def nontrivialAt (events : List NetworkEvent) (i : ℕ) : ℕ :=
  {C | IsNontrivial (graphAt events i).vertices (graphAt events i).Edge C}.ncard

/-- A non-trivial component at the event number `i`, none of whose vertices was in
one at an earlier check. -/
structure IsNew (cfg : PipelineConfig) (events : List NetworkEvent) (i : ℕ) (C : Finset Vertex) :
    Prop where
  nontrivial : IsNontrivial (graphAt events i).vertices (graphAt events i).Edge C
  disjoint : ∀ j < i, IsCheck cfg j → ∀ C',
    IsNontrivial (graphAt events j).vertices (graphAt events j).Edge C' → Disjoint C C'

/-- An `scc_anomaly` alert whose members are `C` is emitted at the event number `i`. -/
def Alerted (eng : Engine) (events : List NetworkEvent) (outs : List Output) (i : ℕ)
    (C : Finset Vertex) : Prop :=
  ∃ evt out scc, events[i]? = some evt ∧ outs[i]? = some out ∧ scc.Nodup ∧ scc.toFinset = C ∧
    eng.sccAlert evt scc ∈ out.alerts

/-- The number of non-trivial components has grown over all earlier checks. -/
def Grown (cfg : PipelineConfig) (events : List NetworkEvent) (i : ℕ) : Prop :=
  0 < nontrivialAt events i ∧ ∀ j < i, IsCheck cfg j → nontrivialAt events j < nontrivialAt events i

/-- What the remembered count and the alerts are. -/
structure Watched (cfg : PipelineConfig) (eng : Engine) (events : List NetworkEvent) (s : State)
    (outs : List Output) : Prop where
  le_prev : ∀ i < events.length, IsCheck cfg i → nontrivialAt events i ≤ s.prevNontrivialSccs
  prev_eq : s.prevNontrivialSccs = 0 ∨
    ∃ i < events.length, IsCheck cfg i ∧ nontrivialAt events i = s.prevNontrivialSccs
  grown : ∀ i < events.length, IsCheck cfg i → Grown cfg events i → ∀ C,
    IsNontrivial (graphAt events i).vertices (graphAt events i).Edge C → Alerted eng events outs i C
  not_grown : ∀ i out, outs[i]? = some out → IsCheck cfg i → ¬ Grown cfg events i →
    ∀ a ∈ out.alerts, a.type ≠ "scc_anomaly"

/-- The graph at an old event stays. -/
theorem graphAt_append_of_lt {i : ℕ} (hi : i < events.length) (evt : NetworkEvent) :
    graphAt (events ++ [evt]) i = graphAt events i := by
  rw [graphAt, graphAt, List.take_append_of_le_length (Nat.succ_le_of_lt hi)]

/-- The graph at the new event has all events. -/
theorem graphAt_append_last (events : List NetworkEvent) (evt : NetworkEvent) :
    graphAt (events ++ [evt]) events.length = graphOf (events ++ [evt]) := by
  rw [graphAt, List.take_of_length_le (by simp)]

/-- The number of components at an old event stays. -/
theorem nontrivialAt_append_of_lt {i : ℕ} (hi : i < events.length) (evt : NetworkEvent) :
    nontrivialAt (events ++ [evt]) i = nontrivialAt events i := by
  rw [nontrivialAt, nontrivialAt, graphAt_append_of_lt hi]

/-- Whether it had grown stays. -/
theorem grown_append_of_lt {i : ℕ} (hi : i < events.length) (evt : NetworkEvent) :
    Grown cfg (events ++ [evt]) i ↔ Grown cfg events i := by
  unfold Grown
  rw [nontrivialAt_append_of_lt hi]
  refine and_congr_right fun _ => forall₂_congr fun j hj => ?_
  rw [nontrivialAt_append_of_lt (hj.trans hi)]

/-- An alert sent stays sent. -/
theorem Alerted.append {i : ℕ} {C : Finset Vertex} (h : Alerted eng events outs i C)
    (evt : NetworkEvent) (out : Output) : Alerted eng (events ++ [evt]) (outs ++ [out]) i C := by
  obtain ⟨evt', out', scc, hevt, hout, hrest⟩ := h
  refine ⟨evt', out', scc, ?_, ?_, hrest⟩
  · rw [List.getElem?_append_left (List.getElem?_eq_some_iff.mp hevt).1, hevt]
  · rw [List.getElem?_append_left (List.getElem?_eq_some_iff.mp hout).1, hout]

/-- The graph has no edge out of its vertices. -/
theorem closed_graphOf (events : List NetworkEvent) :
    ∀ x y, x ∈ (graphOf events).vertices → (graphOf events).Edge x y →
      y ∈ (graphOf events).vertices :=
  fun _ _ _ h => h.mem_vertices.2

/-- The alerts of the scan phase are of other types. -/
theorem ScanResult.type_ne {srcLabel : Int32} {freq : UInt64} {alerted alerted' : Finset UInt32}
    {alerts : List Soc.Alert} (h : ScanResult eng evt srcLabel freq alerted alerted' alerts) :
    ∀ a ∈ alerts, a.type ≠ "scc_anomaly" := by
  have hscan : (eng.portScanAlert evt srcLabel freq).type ≠ "scc_anomaly" :=
    show "port_scan" ≠ "scc_anomaly" by decide
  have hblast : ∀ blast, (eng.blastRadiusAlert evt blast).type ≠ "scc_anomaly" := fun _ =>
    show "blast_radius" ≠ "scc_anomaly" by decide
  unfold ScanResult at h
  split_ifs at h
  · rcases h.2 with rfl | ⟨blast, rfl⟩
    · simpa using hscan
    · simpa using ⟨hscan, hblast blast⟩
  · rw [h.2]
    exact fun a ha => absurd ha List.not_mem_nil

/-- The check counts the non-trivial components. -/
theorem nontrivial_eq {sccs : List Component}
    (h : IsSccPartition (graphOf (events ++ [evt])).vertices (graphOf (events ++ [evt])).Edge sccs) :
    nontrivial sccs = nontrivialAt (events ++ [evt]) events.length := by
  rw [nontrivialAt, graphAt_append_last, h.ncard_isNontrivial (closed_graphOf _), nontrivial]

/-- **The remembered count is the maximum over the earlier checks**, so comparing
with it is comparing with all of them. -/
theorem Watched.grown_iff (h : Watched cfg eng events s outs) (evt : NetworkEvent) :
    Grown cfg (events ++ [evt]) events.length
      ↔ s.prevNontrivialSccs < nontrivialAt (events ++ [evt]) events.length := by
  constructor
  · rintro ⟨hpos, hlt⟩
    rcases h.prev_eq with hprev | ⟨i, hi, hcheck, hprev⟩
    · rwa [hprev]
    · rw [← hprev, ← nontrivialAt_append_of_lt hi evt]
      exact hlt i hi hcheck
  · intro hlt
    refine ⟨Nat.zero_lt_of_lt hlt, fun j hj hcheck => ?_⟩
    rw [nontrivialAt_append_of_lt hj]
    exact lt_of_le_of_lt (h.le_prev j hj hcheck) hlt

/-- What the last event adds to `Watched`. -/
theorem Watched.append (h : Watched cfg eng events s outs) (hlen : outs.length = events.length)
    (hle : s.prevNontrivialSccs ≤ s'.prevNontrivialSccs)
    (hlast : IsCheck cfg events.length →
      nontrivialAt (events ++ [evt]) events.length ≤ s'.prevNontrivialSccs)
    (hprev : s'.prevNontrivialSccs = s.prevNontrivialSccs ∨ (IsCheck cfg events.length ∧
      nontrivialAt (events ++ [evt]) events.length = s'.prevNontrivialSccs))
    (hgrown : IsCheck cfg events.length → Grown cfg (events ++ [evt]) events.length → ∀ C,
      IsNontrivial (graphOf (events ++ [evt])).vertices (graphOf (events ++ [evt])).Edge C →
        Alerted eng (events ++ [evt]) (outs ++ [out]) events.length C)
    (hnot : IsCheck cfg events.length → ¬ Grown cfg (events ++ [evt]) events.length →
      ∀ a ∈ out.alerts, a.type ≠ "scc_anomaly") :
    Watched cfg eng (events ++ [evt]) s' (outs ++ [out]) := by
  -- every check of the longer run is an earlier one or the one of the last event
  have hcases : ∀ i < (events ++ [evt]).length, i < events.length ∨ i = events.length := by
    intro i hi
    rw [List.length_append, List.length_singleton] at hi
    omega
  refine ⟨fun i hi hcheck => ?_, ?_, fun i hi hcheck hg C hC => ?_, fun i out' hout hcheck hg => ?_⟩
  · rcases hcases i hi with hi | rfl
    · rw [nontrivialAt_append_of_lt hi]
      exact (h.le_prev i hi hcheck).trans hle
    · exact hlast hcheck
  · rcases hprev with hprev | ⟨hcheck, hprev⟩
    · rcases h.prev_eq with h0 | ⟨i, hi, hcheck, hi'⟩
      · exact Or.inl (hprev.trans h0)
      · refine Or.inr ⟨i, by simp; omega, hcheck, ?_⟩
        rw [nontrivialAt_append_of_lt hi, hi', hprev]
    · exact Or.inr ⟨events.length, by simp, hcheck, hprev⟩
  · rcases hcases i hi with hi | rfl
    · rw [grown_append_of_lt hi] at hg
      rw [graphAt_append_of_lt hi] at hC
      exact (h.grown i hi hcheck hg C hC).append evt out
    · rw [graphAt_append_last] at hC
      exact hgrown hcheck hg C hC
  · have hi := (List.getElem?_eq_some_iff.mp hout).1
    rw [List.length_append, List.length_singleton, hlen] at hi
    rcases hcases i (by rwa [List.length_append]) with hi | rfl
    · rw [grown_append_of_lt hi] at hg
      rw [List.getElem?_append_left (hlen.symm ▸ hi)] at hout
      exact h.not_grown i out' hout hcheck hg
    · rw [← hlen, List.getElem?_concat_length] at hout
      obtain rfl := Option.some.inj hout
      exact hnot hcheck hg

/-- One event keeps the watch. -/
theorem watched_step (h : Watched cfg eng events s outs) (hcfg : eng.cfg = cfg)
    (hgraph : s.graph = graphOf events) (htotal : s.totalEvents = UInt64.ofNat events.length)
    (hlen : outs.length = events.length) (hstep : Stepped eng s evt s' out) :
    Watched cfg eng (events ++ [evt]) s' (outs ++ [out]) := by
  obtain ⟨scanAlerts, sccAlerts, hout, ⟨srcLabel, freq, -, -, -, hscan⟩, period, hperiod, hcheck⟩ :=
    hstep.alerts_eq
  have hscan := hscan.type_ne
  have hgraph' : s'.graph = graphOf (events ++ [evt]) := by
    rw [hstep.graph_eq, hgraph, graphOf_append]
  have htotal' : s'.totalEvents = UInt64.ofNat (events.length + 1) := by
    rw [hstep.totalEvents_eq, htotal, UInt64.ofNat_add]
    rfl
  have hiff : IsCheck cfg events.length ↔ s'.totalEvents % period = 0 := by
    rw [IsCheck, htotal', ← hcfg, hperiod]
    constructor
    · rintro ⟨m, hm, h0⟩
      rwa [Option.some.inj hm]
    · exact fun h0 => ⟨period, rfl, h0⟩
  -- the components are looked at on multiples of the period only
  by_cases h0 : s'.totalEvents % period = 0
  · have hpart := hcheck.partition h0
    have halerts := hcheck.alerts_eq h0
    rw [hgraph'] at hpart
    rw [nontrivial_eq hpart] at halerts
    split_ifs at halerts with hmore
    · obtain ⟨hscc, hprev⟩ := halerts
      refine h.append hlen (hprev ▸ le_of_lt hmore) (fun _ => hprev.ge)
        (Or.inr ⟨hiff.mpr h0, hprev.symm⟩) (fun _ _ C hC => ?_)
        fun _ hnot => absurd ((h.grown_iff evt).mpr hmore) hnot
      obtain ⟨scc, hmem, hlong, rfl⟩ := (hpart.isNontrivial_iff (closed_graphOf _)).mp hC
      refine ⟨evt, out, scc, List.getElem?_concat_length, ?_, hpart.nodup_of_mem hmem, rfl, ?_⟩
      · rw [← hlen, List.getElem?_concat_length]
      · rw [hout, hscc]
        exact List.mem_append_right _ (List.mem_map_of_mem
          (List.mem_filter.mpr ⟨hmem, decide_eq_true hlong⟩))
    · obtain ⟨hscc, hprev⟩ := halerts
      refine h.append hlen hprev.ge (fun _ => hprev ▸ not_lt.mp hmore) (Or.inl hprev)
        (fun _ hg => absurd ((h.grown_iff evt).mp hg) hmore) fun _ _ => ?_
      rw [hout, hscc, List.append_nil]
      exact hscan
  · obtain ⟨hscc, -, hprev⟩ := hcheck.skipped h0
    exact h.append hlen hprev.ge (fun hc => absurd (hiff.mp hc) h0) (Or.inl hprev)
      (fun hc => absurd (hiff.mp hc) h0) fun hc => absurd (hiff.mp hc) h0

/-- **Along every run** the remembered count is the maximum over the checks. -/
theorem Reaches.watched (hsetup : setup env cfg = some (eng, s₀))
    (h : Reaches env cfg events s outs) : Watched cfg eng events s outs := by
  have hcreated := created_of_setup hsetup
  refine h.invariant (P := Watched cfg eng) hsetup ?_ ?_
  · have hprev : s₀.prevNontrivialSccs = 0 := by rw [hcreated.state_eq]; rfl
    exact ⟨fun i hi => absurd hi (Nat.not_lt_zero i), Or.inl hprev,
      fun i hi => absurd hi (Nat.not_lt_zero i), fun i out hout => absurd hout (by simp)⟩
  · intro events evt s outs s' out hrun h hstep
    obtain ⟨hgraph, htotal, hlen⟩ := hrun.counters
    exact watched_step h hcreated.cfg_eq hgraph htotal hlen hstep

/-! ## New components -/

/-- Where a new component is reported, the number has grown. -/
theorem Watched.alerted_iff (h : Watched cfg eng events s outs) {i : ℕ} (hi : i < events.length)
    (hcheck : IsCheck cfg i) :
    (∀ C, IsNew cfg events i C → Alerted eng events outs i C) ↔
      ((∃ C, IsNew cfg events i C) →
        ∀ j < i, IsCheck cfg j → nontrivialAt events j < nontrivialAt events i) := by
  constructor
  · rintro hall ⟨C, hC⟩
    by_contra hnot
    obtain ⟨evt, out, scc, -, hout, -, -, halert⟩ := hall C hC
    exact h.not_grown i out hout hcheck (fun hg => hnot hg.2) _ halert (type_sccAlert eng evt scc)
  · intro hgrown C hC
    refine h.grown i hi hcheck ⟨?_, hgrown ⟨C, hC⟩⟩ C hC.nontrivial
    have hfin : {C | IsNontrivial (graphAt events i).vertices (graphAt events i).Edge C}.Finite :=
      (graphAt events i).vertices.powerset.finite_toSet.subset fun C' hC' =>
        Finset.mem_coe.mpr (Finset.mem_powerset.mpr (hC'.subset (closed_graphOf _)))
    exact (Set.ncard_pos hfin).mpr ⟨C, hC.nontrivial⟩

/-- **A new component is reported exactly when** the number of non-trivial
components exceeds the number at every earlier check.  The run returns, unless
an `int` counts too many vertices. -/
theorem scc_alerted_iff (hsetup : setup env cfg = some (eng, s₀)) (events : List NetworkEvent) :
    (∀ s outs, Reaches env cfg events s outs → ∀ i < events.length, IsCheck cfg i →
      ((∀ C, IsNew cfg events i C → Alerted eng events outs i C) ↔
        ((∃ C, IsNew cfg events i C) →
          ∀ j < i, IsCheck cfg j → nontrivialAt events j < nontrivialAt events i))) ∧
    ((∃ m, sccPeriod cfg = some m) →
      (eng.CountsVertices → (graphOf events).numVertices < 2 ^ 31) →
      ∃ s outs, Reaches env cfg events s outs) :=
  ⟨fun _ _ hrun _ hi hcheck => (hrun.watched hsetup).alerted_iff hi hcheck,
    fun hperiod hsize => exists_reaches_of_size hsetup hperiod events hsize⟩

/-! ## Examples of runs -/

/-- The edges are the connections seen. -/
theorem edge_graphOf {a b : Vertex} :
    (graphOf events).Edge a b ↔ ∃ evt ∈ events, evt.srcIp = a ∧ evt.dstIp = b := by
  induction events using List.reverseRecOn with
  | nil =>
    refine iff_of_false (fun h => ?_) (by simp)
    exact absurd h (Finset.notMem_empty b)
  | append_singleton events evt ih =>
    rw [graphOf_append, edge_buildGraph, ih]
    simp only [List.mem_append, List.mem_singleton]
    constructor
    · rintro (⟨rfl, rfl⟩ | ⟨e, he, hab⟩)
      · exact ⟨evt, Or.inr rfl, rfl, rfl⟩
      · exact ⟨e, Or.inl he, hab⟩
    · rintro ⟨e, he | rfl, rfl, rfl⟩
      · exact Or.inr ⟨e, he, rfl, rfl⟩
      · exact Or.inl ⟨rfl, rfl⟩

/-- The vertices are the addresses seen. -/
theorem mem_vertices_graphOf {v : Vertex} :
    v ∈ (graphOf events).vertices ↔ ∃ evt ∈ events, v = evt.srcIp ∨ v = evt.dstIp := by
  induction events using List.reverseRecOn with
  | nil => exact iff_of_false (Finset.notMem_empty v) (by simp)
  | append_singleton events evt ih =>
    rw [graphOf_append, vertices_buildGraph, Finset.mem_insert, Finset.mem_insert, ih]
    simp only [List.mem_append, List.mem_singleton]
    constructor
    · rintro (h | h | ⟨e, he, h⟩)
      · exact ⟨evt, Or.inr rfl, Or.inr h⟩
      · exact ⟨evt, Or.inr rfl, Or.inl h⟩
      · exact ⟨e, Or.inl he, h⟩
    · rintro ⟨e, he | rfl, h⟩
      · exact Or.inr (Or.inr ⟨e, he, h⟩)
      · exact h.symm.imp id Or.inl

/-- The components of a graph in which they are joined in both directions. -/
theorem isSccPartition_graphOf {comps : List Component} (hne : ∀ c ∈ comps, c ≠ [])
    (hnd : comps.flatten.Nodup)
    (hcover : ∀ evt ∈ events, evt.srcIp ∈ comps.flatten ∧ evt.dstIp ∈ comps.flatten)
    (honly : (comps.flatten.all fun v => events.any fun evt => v = evt.srcIp ∨ v = evt.dstIp) = true)
    (hchain : ∀ c ∈ comps, c.IsChain fun x y => (∃ evt ∈ events, evt.srcIp = x ∧ evt.dstIp = y) ∧
      ∃ evt ∈ events, evt.srcIp = y ∧ evt.dstIp = x)
    (hclosed : ∀ evt ∈ events, ∀ c ∈ comps, evt.srcIp ∈ c → evt.dstIp ∈ c) :
    IsSccPartition (graphOf events).vertices (graphOf events).Edge comps := by
  refine isSccPartition_of_isChain hne hnd (fun v => ?_) (fun c hc => ?_) fun c hc x y hx hxy => ?_
  · rw [mem_vertices_graphOf]
    constructor
    · intro hv
      simpa using List.all_eq_true.mp honly v hv
    · rintro ⟨evt, hevt, rfl | rfl⟩
      · exact (hcover evt hevt).1
      · exact (hcover evt hevt).2
  · refine (hchain c hc).imp fun x y h => ?_
    rwa [edge_graphOf, edge_graphOf]
  · obtain ⟨evt, hevt, rfl, rfl⟩ := edge_graphOf.mp hxy
    exact hclosed evt hevt c hc hx

/-- A check every ten events. -/
def checkingConfig : PipelineConfig :=
  { PipelineConfig.plain "hash_map_exact" "tarjan" with sccIntervalSeconds := 1 }

/-- A configuration that checks at every tenth event. -/
theorem isCheck_checkingConfig {i : ℕ} :
    IsCheck checkingConfig i ↔ UInt64.ofNat (i + 1) % 10 = 0 := by
  have hten : sccPeriod checkingConfig = some 10 := rfl
  rw [IsCheck, hten]
  constructor
  · rintro ⟨m, hm, h⟩
    rwa [Option.some.inj hm]
  · exact fun h => ⟨10, rfl, h⟩

/-- One connection for each pair of hosts. -/
def linked (pairs : List (UInt32 × UInt32)) : List NetworkEvent :=
  pairs.map fun p => ⟨p.1, p.2, 80, 7, 1⟩

/-- Two hosts that talk to each other until the first check. -/
theorem scc_alerted_iff_first :
    ∃ env eng s outs, Reaches env checkingConfig
        (linked ([(1, 2), (2, 1)] ++ List.replicate 8 (1, 2))) s outs ∧
      Alerted eng (linked ([(1, 2), (2, 1)] ++ List.replicate 8 (1, 2))) outs 9 {1, 2} := by
  obtain ⟨env⟩ := (inferInstance : Nonempty Env)
  obtain ⟨eng, s₀, hsetup⟩ := exists_setup checkingConfig rfl rfl rfl rfl env
  obtain ⟨hiff, htotal⟩ :=
    scc_alerted_iff hsetup (linked ([(1, 2), (2, 1)] ++ List.replicate 8 (1, 2)))
  obtain ⟨s, outs, hrun⟩ := htotal ⟨10, rfl⟩
    fun _ => lt_of_le_of_lt (numVertices_graphOf_le _) (by decide)
  have hfirst : ∀ j < 9, ¬ IsCheck checkingConfig j := by
    simp only [isCheck_checkingConfig]
    decide
  have hpart : IsSccPartition
      (graphAt (linked ([(1, 2), (2, 1)] ++ List.replicate 8 (1, 2))) 9).vertices
      (graphAt (linked ([(1, 2), (2, 1)] ++ List.replicate 8 (1, 2))) 9).Edge [[1, 2]] :=
    isSccPartition_graphOf (by decide) (by decide) (by decide) (by decide) (by decide) (by decide)
  refine ⟨env, eng, s, outs, hrun, (hiff s outs hrun 9 (by decide)
    (isCheck_checkingConfig.mpr (by decide))).mpr (fun _ j hj hcheck => absurd hcheck (hfirst j hj))
    {1, 2} ⟨?_, fun j hj hcheck => absurd hcheck (hfirst j hj)⟩⟩
  exact (hpart.isNontrivial_iff (closed_graphOf _)).mpr ⟨[1, 2], by decide, by decide, by decide⟩

/-- Two components until the first check; then they merge, and one more appears. -/
def merging : List NetworkEvent :=
  linked ([(1, 2), (2, 1), (3, 4), (4, 3)] ++ List.replicate 6 (1, 2) ++
    [(2, 3), (3, 2), (5, 6), (6, 5)] ++ List.replicate 6 (5, 6))

/-- **A new component is missed** when two others have merged since the last
check: in no environment are all new components reported. -/
theorem not_scc_alerted :
    ¬ ∃ env, ∀ eng s₀ s outs, setup env checkingConfig = some (eng, s₀) →
      Reaches env checkingConfig merging s outs → ∀ i C, IsCheck checkingConfig i →
      IsNew checkingConfig merging i C → Alerted eng merging outs i C := by
  rintro ⟨env, hall⟩
  obtain ⟨eng, s₀, hsetup⟩ := exists_setup checkingConfig rfl rfl rfl rfl env
  obtain ⟨s, outs, hrun⟩ := exists_reaches_of_size hsetup ⟨10, rfl⟩ merging
    fun _ => lt_of_le_of_lt (numVertices_graphOf_le _) (by decide)
  have hcheck : IsCheck checkingConfig 19 := isCheck_checkingConfig.mpr (by decide)
  have hbefore : IsSccPartition (graphAt merging 9).vertices (graphAt merging 9).Edge
      [[1, 2], [3, 4]] :=
    isSccPartition_graphOf (by decide) (by decide) (by decide) (by decide) (by decide) (by decide)
  have hafter : IsSccPartition (graphAt merging 19).vertices (graphAt merging 19).Edge
      [[1, 2, 3, 4], [5, 6]] :=
    isSccPartition_graphOf (by decide) (by decide) (by decide) (by decide) (by decide) (by decide)
  have hnew : IsNew checkingConfig merging 19 {5, 6} := by
    refine ⟨(hafter.isNontrivial_iff (closed_graphOf _)).mpr
      ⟨[5, 6], by decide, by decide, by decide⟩, fun j hj hcheckj C' hC' => ?_⟩
    -- the only earlier check is at the tenth event
    have hnine : ∀ j < 19, UInt64.ofNat (j + 1) % 10 = 0 → j = 9 := by decide
    obtain rfl := hnine j hj (isCheck_checkingConfig.mp hcheckj)
    have hsub := hC'.subset (closed_graphOf _)
    have hvertices : (graphAt merging 9).vertices = {1, 2, 3, 4} := by
      ext v
      rw [← hbefore.mem_iff]
      simp
    rw [hvertices] at hsub
    exact Finset.disjoint_of_subset_right hsub (by decide)
  obtain ⟨evt, out, scc, -, hout, -, -, halert⟩ :=
    hall eng s₀ s outs hsetup hrun 19 {5, 6} hcheck hnew
  refine (hrun.watched hsetup).not_grown 19 out hout hcheck (fun hgrown => ?_) _ halert
    (type_sccAlert eng evt scc)
  have hlt := hgrown.2 9 (by decide) (isCheck_checkingConfig.mpr (by decide))
  rw [nontrivialAt, nontrivialAt, hbefore.ncard_isNontrivial (closed_graphOf _),
    hafter.ncard_isNontrivial (closed_graphOf _)] at hlt
  exact absurd hlt (by decide)

end Engine
