/-
# The source of an `scc_anomaly` alert

The alert for a component names the first vertex that the detector lists for it.
With `Kosaraju` this can be every vertex of the component (`sources_eq`), so the
source is not a function of the component (`subsingleton_sources_iff`), and two
engines that see the same anomaly report it under different keys.
-/
import ZtMapper.Engine.EventLines
import ZtMapper.Engine.Final
import ZtMapper.Graph.KosarajuLeader

open Frequency Loop Pipeline Scc Unordered

namespace Engine

variable {eng : Engine} {env : Env} {cfg : PipelineConfig} {s₀ s s' : State} {evt : NetworkEvent}
  {events : List NetworkEvent} {outs : List Output} {out : Output}

/-! ## The components of a check -/

/-- The components that a check stores are those of the detector. -/
theorem lastSccs_of_sccCheck {fuel n : ℕ} {alerts : List Soc.Alert} {period : UInt64}
    (h : eng.sccCheck env fuel n s evt = some (s', alerts))
    (hperiod : sccPeriod eng.cfg = some period) (hdue : s'.totalEvents % period = 0) :
    s'.graph = s.graph ∧
      eng.sccDetector.findSccs (env.order n s.graph) (env.orderT n s.graph) fuel
        = some s'.lastSccs := by
  unfold sccCheck at h
  rw [hperiod, Option.bind_eq_bind, Option.bind_some] at h
  split_ifs at h with hcheck
  · obtain ⟨sccs, hsccs, heq⟩ := Option.bind_eq_some_iff.mp h
    dsimp only at heq
    split_ifs at heq
    · rw [← (Prod.mk.inj (Option.some.inj heq)).1]
      exact ⟨rfl, hsccs⟩
    · rw [← (Prod.mk.inj (Option.some.inj heq)).1]
      exact ⟨rfl, hsccs⟩
  · rw [← (Prod.mk.inj (Option.some.inj h)).1] at hdue
    exact absurd hdue hcheck

theorem lastSccs_of_step {fuel n : ℕ} {period : UInt64}
    (h : eng.step env fuel n s evt = some (s', out)) (hperiod : sccPeriod eng.cfg = some period)
    (hdue : s'.totalEvents % period = 0) :
    eng.sccDetector.findSccs (env.order n s'.graph) (env.orderT n s'.graph) fuel
      = some s'.lastSccs := by
  unfold step at h
  simp only [Option.bind_eq_bind, Option.bind_eq_some_iff] at h
  obtain ⟨-, -, -, -, -, -, -, -, ⟨t, scanAlerts⟩, -, ⟨t', sccAlerts⟩, hcheck, heq⟩ := h
  obtain ⟨heq, -⟩ := Prod.mk.inj (Option.some.inj heq)
  subst heq
  obtain ⟨hgraph, hsccs⟩ := lastSccs_of_sccCheck hcheck hperiod hdue
  rw [hgraph]
  exact hsccs

/-- The last check of a run, when it is due. -/
theorem Reaches.lastSccs (hsetup : setup env cfg = some (eng, s₀))
    (h : Reaches env cfg (events ++ [evt]) s outs) (hcheck : IsCheck cfg events.length) :
    ∃ fuel, eng.sccDetector.findSccs (env.order events.length s.graph)
      (env.orderT events.length s.graph) fuel = some s.lastSccs := by
  obtain ⟨period, hperiod, hdue⟩ := hcheck
  obtain ⟨s₁, outs₁, out, hrun, ⟨fuel, hstep⟩, -⟩ := (reaches_concat hsetup).mp h
  have htotal := h.counters.2.1
  rw [List.length_append, List.length_singleton] at htotal
  rw [← (created_of_setup hsetup).cfg_eq] at hperiod
  rw [← htotal] at hdue
  refine ⟨fuel, ?_⟩
  rw [← hrun.counters.2.2]
  exact lastSccs_of_step (hstep fuel le_rfl) hperiod hdue

/-! ## The events with an alert -/

theorem graphAt_take {i j : ℕ} (hj : j ≤ i) (events : List NetworkEvent) :
    graphAt (events.take (i + 1)) j = graphAt events j := by
  rw [graphAt, graphAt, List.take_take, min_eq_left (by omega)]

theorem Grown.take {i : ℕ} (h : Grown cfg events i) : Grown cfg (events.take (i + 1)) i := by
  obtain ⟨hpos, hlt⟩ := h
  unfold nontrivialAt at hpos hlt
  unfold Grown nontrivialAt
  rw [graphAt_take le_rfl]
  refine ⟨hpos, fun j hj hcheck => ?_⟩
  rw [graphAt_take hj.le]
  exact hlt j hj hcheck

/-- The step of a run that makes the output number `i`. -/
theorem Reaches.stepped_at (hsetup : setup env cfg = some (eng, s₀))
    (h : Reaches env cfg events s outs) {i : ℕ} (hout : outs[i]? = some out) :
    ∃ evt s₁ outs₁ s₂, events.take (i + 1) = events.take i ++ [evt] ∧
      (events.take i).length = i ∧ Reaches env cfg (events.take i) s₁ outs₁ ∧
      Stepped eng s₁ evt s₂ out := by
  have hi : i < events.length := h.counters.2.2 ▸ (List.getElem?_eq_some_iff.mp hout).1
  have htake := List.take_succ_eq_append_getElem hi
  have hlen : (events.take i).length = i := List.length_take_of_le hi.le
  rw [← List.take_append_drop (i + 1) events, htake] at h
  obtain ⟨s₂, outs₂, hrun, hprefix⟩ := h.of_append hsetup
  obtain ⟨s₁, outs₁, out', hrun₁, hstepped, rfl⟩ := hrun.stepped hsetup
  have hlen₁ : outs₁.length = i := hrun₁.counters.2.2.trans hlen
  obtain ⟨rest, rfl⟩ := hprefix
  rw [List.append_assoc, ← hlen₁, List.getElem?_append_right le_rfl, Nat.sub_self] at hout
  obtain rfl : out' = out := Option.some.inj hout
  exact ⟨_, s₁, outs₁, s₂, htake, hlen, hrun₁, hstepped⟩

/-- **An alert is emitted at a check** that has found more components than every
earlier one. -/
theorem Reaches.grown_of_alert (hsetup : setup env cfg = some (eng, s₀))
    (h : Reaches env cfg events s outs) {i : ℕ} (hout : outs[i]? = some out) {alert : Soc.Alert}
    (halert : alert ∈ out.alerts) (htype : alert.type = "scc_anomaly") :
    IsCheck cfg i ∧ Grown cfg events i := by
  have hcheck : IsCheck cfg i := by
    obtain ⟨evt, s₁, outs₁, s₂, -, hlen, hrun, hstepped⟩ := h.stepped_at hsetup hout
    obtain ⟨scanAlerts, sccAlerts, halerts, ⟨srcLabel, freq, -, -, -, hscan⟩, period, hperiod,
      hchecked⟩ := hstepped.alerts_eq
    have htotal := hstepped.totalEvents_eq
    rw [hrun.counters.2.1, hlen] at htotal
    rw [(created_of_setup hsetup).cfg_eq] at hperiod
    refine ⟨period, hperiod, ?_⟩
    by_contra hdue
    rw [UInt64.ofNat_add] at hdue
    obtain ⟨hnil, -⟩ := hchecked.skipped (by rw [htotal]; exact hdue)
    rw [halerts, hnil, List.append_nil] at halert
    exact hscan.type_ne alert halert htype
  refine ⟨hcheck, ?_⟩
  by_contra hnot
  exact (h.watched hsetup).not_grown i out hout hcheck hnot alert halert htype

/-! ## The sources of an alert -/

/-- A run of an engine emits an alert with the source `source` for the component `C`
of the graph `g`. -/
def Emits (g : DirectedGraph) (C : Finset Vertex) (source : String) : Prop :=
  ∃ env cfg eng s₀ events s outs i evt out scc, setup env cfg = some (eng, s₀) ∧
    Reaches env cfg events s outs ∧ graphAt events i = g ∧ outs[i]? = some out ∧
    scc.toFinset = C ∧ eng.sccAlert evt scc ∈ out.alerts ∧ (eng.sccAlert evt scc).source = source

/-- The sources of the alerts for a component, over all runs of engines. -/
def Sources (g : DirectedGraph) (C : Finset Vertex) : Set String := {x | Emits g C x}

/-- The source names a vertex of the component. -/
theorem Emits.exists_mem {g : DirectedGraph} {C : Finset Vertex} {source : String}
    (hC : C.Nonempty) (h : Emits g C source) : ∃ v ∈ C, ipToString v = source := by
  obtain ⟨env, cfg, eng, s₀, events, s, outs, i, evt, out, scc, -, -, -, -, rfl, -, rfl⟩ := h
  cases scc with
  | nil => exact absurd hC (by simp)
  | cons v scc => exact ⟨v, by simp, rfl⟩

/-- Some order lists a given vertex first. -/
theorem exists_order_first {g : DirectedGraph} {v : Vertex} (hv : v ∈ g.vertices) :
    ∃ (ord : g.Order) (rest : List Vertex), ord.vertices = v :: rest := by
  refine ⟨.ofVertices g (v :: (g.vertices.erase v).toList) ?_, _, rfl⟩
  rw [Enumerates, ← Multiset.cons_coe, Finset.coe_toList, Finset.erase_val,
    Multiset.cons_erase (Finset.mem_val.mpr hv)]

open Classical in
/-- The environment that meets one graph in a given order. -/
noncomputable def Env.withOrder (env : Env) (g : DirectedGraph) (ord : g.Order) : Env where
  getenv := env.getenv
  order := fun n g' => if h : g' = g then h ▸ ord else env.order n g'
  orderT := fun _ _ => Classical.arbitrary _
  listing := env.listing
  listing_spec := env.listing_spec

theorem Env.order_withOrder (env : Env) (g : DirectedGraph) (ord : g.Order) (n : ℕ) :
    (env.withOrder g ord).order n g = ord :=
  dif_pos rfl

/-- The engine with `Kosaraju` and `BFS`. -/
def kosarajuConfig (cfg : PipelineConfig) : PipelineConfig :=
  { cfg with
    scc := { cfg.scc with name := "kosaraju" }
    reachability := { cfg.reachability with name := "bfs" } }

theorem exists_setup_kosaraju (hsetup : setup env cfg = some (eng, s₀)) (env' : Env) :
    ∃ eng' s₀', setup env' (kosarajuConfig cfg) = some (eng', s₀') := by
  obtain ⟨he, -, -, hip⟩ := exists_setup_iff_names.mp ⟨eng, s₀, hsetup⟩
  exact exists_setup_iff_names.mpr ⟨he, Or.inr rfl, Or.inl rfl, hip⟩

/-- The vertex that an order lists first leads its component. -/
theorem head?_of_findSccs {g g' : DirectedGraph} (hg : g' = g) {n fuel : ℕ} {v : Vertex}
    (hfirst : (env.order n g).vertices.head? = some v) {sccs : List Component}
    (h : SccDetector.kosaraju.findSccs (env.order n g') (env.orderT n g') fuel = some sccs)
    {c : Component} (hc : c ∈ sccs) (hv : v ∈ c) (hreach : ∀ y ∈ c, Reach g'.Edge v y) :
    c.head? = some v := by
  subst hg
  obtain ⟨rest, hrest⟩ := List.head?_eq_some_iff.mp hfirst
  exact Kosaraju.head?_eq_first hrest h hc hv hreach

/-- **Every vertex of a component can be the source** of its alert. -/
theorem Emits.of_mem {g : DirectedGraph} {C : Finset Vertex} {source : String}
    (hC : IsNontrivial g.vertices g.Edge C) (h : Emits g C source) {v : Vertex} (hv : v ∈ C) :
    Emits g C (ipToString v) := by
  obtain ⟨env, cfg, eng, s₀, events, s, outs, i, evt, out, scc, hsetup, hrun, hg, hout, -, halert,
    -⟩ := h
  obtain ⟨hcheck, hgrown⟩ := hrun.grown_of_alert hsetup hout halert (type_sccAlert eng evt scc)
  obtain ⟨evt, s₁, -, -, htake, hlen, -, -⟩ := hrun.stepped_at hsetup hout
  have hgraph : graphOf (events.take i ++ [evt]) = g := by rw [← htake]; exact hg
  have hclosed : ∀ x y, x ∈ g.vertices → g.Edge x y → y ∈ g.vertices :=
    fun _ _ _ h => h.mem_vertices.2
  -- the same events, with the order that lists `v` first
  obtain ⟨ord, rest, hfirst⟩ := exists_order_first (hC.subset hclosed hv)
  obtain ⟨eng', s₀', hsetup'⟩ := exists_setup_kosaraju hsetup (env.withOrder g ord)
  have hcreated := created_of_setup hsetup'
  have hdet : eng'.sccDetector = .kosaraju := (Except.ok.inj hcreated.scc_eq).symm
  have hcheck' : IsCheck (kosarajuConfig cfg) (events.take i).length := hlen.symm ▸ hcheck
  have hgrown' : Grown (kosarajuConfig cfg) (events.take i ++ [evt]) (events.take i).length := by
    rw [hlen, ← htake]
    exact hgrown.take
  obtain ⟨s', outs', hrun'⟩ := exists_reaches_of_size hsetup'
    (hcheck.imp fun _ h => h.1) (events.take i ++ [evt])
    fun h => absurd h (hcreated.not_countsVertices rfl rfl)
  obtain ⟨fuel, hsccs⟩ := hrun'.lastSccs hsetup' hcheck'
  have hgraph' : s'.graph = g := hrun'.counters.1.trans hgraph
  obtain ⟨s₁, outs₁, out', hrun₁, hstepped, rfl⟩ := hrun'.stepped hsetup'
  -- the check finds the component, with `v` first
  obtain ⟨scanAlerts, sccAlerts, halerts, -, period, hperiod, hchecked⟩ := hstepped.alerts_eq
  have hdue : s'.totalEvents % period = 0 := by
    obtain ⟨period', hperiod', hdue⟩ := hcheck'
    rw [← hcreated.cfg_eq, hperiod] at hperiod'
    rw [hrun'.counters.2.1, List.length_append, List.length_singleton, Option.some.inj hperiod']
    exact hdue
  have hpart := hchecked.partition hdue
  obtain ⟨c, hc, hlong, rfl⟩ := (hpart.isNontrivial_iff (hgraph'.symm ▸ hclosed)).mp
    (hgraph'.symm ▸ hC)
  have hmore : nontrivial s'.lastSccs > s₁.prevNontrivialSccs := by
    rw [nontrivial_eq (hrun'.counters.1 ▸ hpart)]
    exact ((hrun₁.watched hsetup').grown_iff evt).mp hgrown'
  have hemitted := hchecked.alerts_eq hdue
  rw [if_pos hmore] at hemitted
  have hhead : c.head? = some v := by
    rw [hdet] at hsccs
    exact head?_of_findSccs hgraph' (by rw [Env.order_withOrder, hfirst]; rfl) hsccs hc
      (List.mem_toFinset.mp hv) fun y hy => ((hpart.mem_iff_mutual (hgraph'.symm ▸ hclosed) hc
        (List.mem_toFinset.mp hv) y).mp hy).1
  refine ⟨_, _, eng', s₀', _, s', _, (events.take i).length, evt, out', c, hsetup', hrun', ?_, ?_,
    rfl, ?_, ?_⟩
  · rw [graphAt_append_last, hgraph]
  · rw [hlen, ← hlen, ← hrun₁.counters.2.2, List.getElem?_concat_length]
  · rw [halerts, hemitted.1]
    exact List.mem_append_right _ (List.mem_map_of_mem
      (List.mem_filter.mpr ⟨hc, decide_eq_true hlong⟩))
  · show (c.head?.map ipToString).getD "" = _
    rw [hhead]
    rfl

/-- **The sources of a component that is ever reported** are all its vertices. -/
theorem sources_eq {g : DirectedGraph} {C : Finset Vertex}
    (hC : IsNontrivial g.vertices g.Edge C) (hne : (Sources g C).Nonempty) :
    Sources g C = {x | ∃ v ∈ C, ipToString v = x} := by
  obtain ⟨source, hsource⟩ := hne
  ext x
  constructor
  · exact fun hx => Emits.exists_mem (Finset.card_pos.mp (Nat.zero_lt_of_lt hC.1)) hx
  · rintro ⟨v, hv, rfl⟩
    exact hsource.of_mem hC hv

theorem not_subsingleton_of_nonempty {g : DirectedGraph} {C : Finset Vertex}
    (hC : IsNontrivial g.vertices g.Edge C) (hne : (Sources g C).Nonempty) :
    ¬ (Sources g C).Subsingleton := by
  rw [sources_eq hC hne]
  obtain ⟨v, hv, w, hw, hvw⟩ := Finset.one_lt_card.mp hC.1
  exact fun h => hvw (ipToString_injective (h ⟨v, hv, rfl⟩ ⟨w, hw, rfl⟩))

/-! ## Components that are reported -/

/-- The longest period of the check. -/
def patientConfig : PipelineConfig :=
  { PipelineConfig.plain "hash_map_exact" "kosaraju" with sccIntervalSeconds := 100000000 }

/-- The first check of that engine. -/
theorem isCheck_patientConfig {i : ℕ} (hi : i < 1000000000) :
    IsCheck patientConfig i ↔ i + 1 = 1000000000 := by
  have hperiod : sccPeriod patientConfig = some 1000000000 := by decide
  have hnat : (1000000000 : UInt64).toNat = 1000000000 := rfl
  have hmod : UInt64.ofNat (i + 1) % 1000000000 = 0 ↔ i + 1 = 1000000000 := by
    rw [← UInt64.toNat_inj, UInt64.toNat_mod, UInt64.toNat_ofNat_of_lt'
      (lt_trans (Nat.succ_lt_succ hi) (by decide)), hnat]
    show (i + 1) % 1000000000 = 0 ↔ _
    omega
  rw [IsCheck, hperiod, ← hmod]
  constructor
  · rintro ⟨period, hp, h⟩
    rwa [Option.some.inj hp]
  · exact fun h => ⟨_, rfl, h⟩

/-- **A component of a stream of up to `10^9` events is reported** by some engine. -/
theorem sources_nonempty (hlen : events.length ≤ 1000000000) {C : Finset Vertex}
    (hC : IsNontrivial (graphOf events).vertices (graphOf events).Edge C) :
    (Sources (graphOf events) C).Nonempty := by
  obtain ⟨env⟩ := (inferInstance : Nonempty Env)
  obtain ⟨eng, s₀, hsetup⟩ := exists_setup patientConfig rfl rfl rfl rfl env
  obtain ⟨n, hn⟩ := Nat.exists_eq_add_of_le hlen
  obtain ⟨evt, rest, rfl⟩ : ∃ evt rest, events = evt :: rest := by
    refine List.exists_cons_of_ne_nil ?_
    rintro rfl
    obtain ⟨x, hx, -⟩ := hC.2
    exact absurd hx (Finset.notMem_empty x)
  -- repeat a connection until the first check
  have hpairs : pairs (evt :: rest) = pairs ((evt :: rest) ++ List.replicate n evt) := by
    ext ⟨a, b⟩
    simp only [mem_pairs, List.mem_append, List.mem_replicate]
    constructor
    · exact fun ⟨e, he, h⟩ => ⟨e, Or.inl he, h⟩
    · rintro ⟨e, he | ⟨-, rfl⟩, h⟩
      · exact ⟨e, he, h⟩
      · exact ⟨e, List.mem_cons_self, h⟩
  rw [graphOf_congr hpairs] at hC ⊢
  have hlen' : ((evt :: rest) ++ List.replicate n evt).length = 1000000000 := by
    rw [List.length_append, List.length_replicate, ← hn]
  generalize (evt :: rest) ++ List.replicate n evt = padded at hC hlen' ⊢
  obtain ⟨s, outs, hrun⟩ := exists_reaches_of_size hsetup ⟨1000000000, by decide⟩ padded
    fun h => absurd h ((created_of_setup hsetup).not_countsVertices rfl rfl)
  have hgraph : graphAt padded 999999999 = graphOf padded := by
    rw [graphAt, List.take_of_length_le hlen'.le]
  have hbefore : ∀ j < 999999999, ¬ IsCheck patientConfig j := fun j hj hcheck =>
    absurd ((isCheck_patientConfig (hj.trans (by decide))).mp hcheck) (by omega)
  have hcheck : IsCheck patientConfig 999999999 := (isCheck_patientConfig (by decide)).mpr rfl
  obtain ⟨evt', out, scc, -, hout, -, hscc, halert⟩ :=
    ((hrun.watched hsetup).alerted_iff (hlen'.symm ▸ by decide) hcheck).mpr
      (fun _ j hj hj' => absurd hj' (hbefore j hj)) C
      ⟨hgraph.symm ▸ hC, fun j hj hj' => absurd hj' (hbefore j hj)⟩
  exact ⟨_, env, patientConfig, eng, s₀, padded, s, outs, 999999999, evt', out, scc, hsetup, hrun,
    hgraph, hout, hscc, halert, rfl⟩

/-- **The source is not a function of the component**: the runs agree on it only where
none of them emits an alert for the component, which is not so for the graph of
any stream of up to `10^9` events. -/
theorem subsingleton_sources_iff {g : DirectedGraph} {C : Finset Vertex}
    (hC : IsNontrivial g.vertices g.Edge C) :
    ((Sources g C).Subsingleton ↔ Sources g C = ∅) ∧
      ∀ events, graphOf events = g → events.length ≤ 1000000000 → ¬ (Sources g C).Subsingleton := by
  refine ⟨⟨fun hsub => ?_, fun hempty => ?_⟩, ?_⟩
  · rcases Set.eq_empty_or_nonempty (Sources g C) with hempty | hne
    · exact hempty
    · exact absurd hsub (not_subsingleton_of_nonempty hC hne)
  · rw [hempty]
    exact Set.subsingleton_empty
  · rintro events rfl hlen
    exact not_subsingleton_of_nonempty hC (sources_nonempty hlen hC)

/-- Two hosts that talk to each other. -/
theorem isNontrivial_linked :
    IsNontrivial (graphOf (linked [(1, 2), (2, 1)])).vertices
      (graphOf (linked [(1, 2), (2, 1)])).Edge {1, 2} := by
  have hpart : IsSccPartition (graphOf (linked [(1, 2), (2, 1)])).vertices
      (graphOf (linked [(1, 2), (2, 1)])).Edge [[1, 2]] :=
    isSccPartition_graphOf (by decide) (by decide) (by decide) (by decide) (by decide) (by decide)
  exact (hpart.isNontrivial_iff (closed_graphOf _)).mpr ⟨[1, 2], by decide, by decide, by decide⟩

theorem subsingleton_sources_iff_two :
    ¬ (Sources (graphOf (linked [(1, 2), (2, 1)])) {1, 2}).Subsingleton :=
  (subsingleton_sources_iff isNontrivial_linked).2 _ rfl (by decide)

/-- Their alert can name either of the two. -/
theorem two_sources :
    Emits (graphOf (linked [(1, 2), (2, 1)])) {1, 2} "0.0.0.1" ∧
      Emits (graphOf (linked [(1, 2), (2, 1)])) {1, 2} "0.0.0.2" ∧ "0.0.0.1" ≠ "0.0.0.2" := by
  obtain ⟨source, hsource⟩ := sources_nonempty (by decide) isNontrivial_linked
  have h1 : ipToString 1 = "0.0.0.1" := by decide
  have h2 : ipToString 2 = "0.0.0.2" := by decide
  rw [← h1, ← h2]
  exact ⟨hsource.of_mem isNontrivial_linked (by decide),
    hsource.of_mem isNontrivial_linked (by decide), ipToString_injective.ne (by decide)⟩

end Engine
