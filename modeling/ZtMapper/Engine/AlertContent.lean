/-
# What the engine's alerts say

`Justified` says of an alert what must be true of the traffic before it: a source is over
the threshold, a listing is the ball of the given radius around the source, and the members
of a component are one.  `justified_of_reaches` proves it of every alert of every run.
-/
import ZtMapper.Engine.SccAnomaly
import ZtMapper.Graph.DijkstraCorrect

open Distance Frequency Loop Pipeline Scc Unordered

namespace Engine

variable {eng : Engine} {env : Env} {cfg : PipelineConfig} {s₀ s s' : State} {evt : NetworkEvent}
  {events : List NetworkEvent} {outs : List Output} {out : Output} {n : ℕ}

/-- How far an analyzer goes: breadth-first search takes a negative limit for `0`. -/
def hopLimit : ReachabilityAnalyzer → ℤ → ℤ
  | .bfs, maxHops => maxHops.toNat
  | .dijkstra, maxHops => maxHops

/-- The reachable vertices of a listing: each vertex up to the limit, with its distance. -/
structure ListsBall (g : DirectedGraph) (source : Vertex) (limit : ℤ) (l : List (Vertex × ℤ)) :
    Prop where
  nodup : (l.map (·.1)).Nodup
  mem_iff : ∀ v d, (v, d) ∈ l ↔ ∃ k : ℕ, IsDist g.Edge source v k ∧ (k : ℤ) ≤ limit ∧ d = k

/-- The alert is one of `evt`, which meets the graph `g`, and what it says is so. -/
inductive Justified (eng : Engine) (g : DirectedGraph) (evt : NetworkEvent) : Soc.Alert → Prop
  | portScan {srcLabel : Int32} {freq : UInt64}
      (hlabel : eng.ipClassifier.lookup evt.srcIp = some srcLabel)
      (hfreq : freq > UInt64.ofInt eng.cfg.frequency.threshold.toInt) :
      Justified eng g evt (eng.portScanAlert evt srcLabel freq)
  | blastRadius {blast : List (Vertex × ℤ)} (hsource : evt.srcIp ∈ g.vertices)
      (hblast : ListsBall g evt.srcIp
        (hopLimit eng.reachability eng.cfg.reachability.maxHops.toInt) blast) :
      Justified eng g evt (eng.blastRadiusAlert evt blast)
  | sccAnomaly {scc : Component} (hnodup : scc.Nodup)
      (hscc : IsNontrivial (buildGraph g evt).vertices (buildGraph g evt).Edge scc.toFinset) :
      Justified eng g evt (eng.sccAlert evt scc)

/-! ## One event -/

theorem outcome_holdsDistances (analyzer : ReachabilityAnalyzer) {g : DirectedGraph} (ord : g.Order)
    (source : Vertex) (maxHops : Int32) :
    Outcome True (analyzer.reachableWithin ord source maxHops.toInt)
      (HoldsDistances g source (hopLimit analyzer maxHops.toInt)) := by
  cases analyzer with
  | bfs =>
    obtain ⟨r, hret, hr⟩ := Bfs.returns_toNat ord source maxHops.toInt
    exact Or.inl ⟨r, hret, hr⟩
  | dijkstra =>
    rcases Dijkstra.outcome_holdsDistances ord source (Dijkstra.toInt_le_intMax maxHops) with
      ⟨r, hret, hr, -⟩ | ⟨-, hnone⟩
    · exact Or.inl ⟨r, hret, hr⟩
    · exact Or.inr ⟨trivial, hnone⟩

/-- A listing of the distances is a ball, in whatever order it is. -/
theorem listsBall_of_holds {g : DirectedGraph} {source : Vertex} {limit : ℤ} {m : ReachabilityResult}
    (h : HoldsDistances g source limit m) {l : List (Vertex × ℤ)}
    (hl : (l : Multiset (Vertex × ℤ)) = m.entries.map fun e => (e.1, e.2)) :
    ListsBall g source limit l where
  nodup := by
    have hkeys : ((l.map (·.1) : List Vertex) : Multiset Vertex) = m.entries.keys := by
      rw [← Multiset.map_coe, hl, Multiset.map_map]
      rfl
    rw [← Multiset.coe_nodup, hkeys]
    exact m.nodupKeys.nodup_keys
  mem_iff := fun v d => (Lists.mem_iff hl).trans (h v d)

theorem outcome_justified_portScan {srcLabel : Int32} {freq : UInt64}
    (hlabel : eng.ipClassifier.lookup evt.srcIp = some srcLabel) :
    Outcome True (fun fuel => eng.portScan env fuel n s evt srcLabel freq) fun r =>
      r.1.graph = s.graph ∧ ∀ a ∈ r.2, Justified eng s.graph evt a := by
  unfold portScan
  by_cases hscan : freq > UInt64.ofInt eng.cfg.frequency.threshold.toInt ∧
      evt.srcIp ∉ s.alertedSources
  · simp only [if_pos hscan]
    by_cases hv : s.graph.hasVertex evt.srcIp = true
    · simp only [if_pos hv]
      refine (outcome_holdsDistances eng.reachability (env.order n s.graph) evt.srcIp
        eng.cfg.reachability.maxHops).bind fun blast hblast => outcome_some ⟨rfl, ?_⟩
      simp only [List.forall_mem_cons]
      exact ⟨.portScan hlabel hscan.1,
        .blastRadius (of_decide_eq_true hv) (listsBall_of_holds hblast (env.listing_spec n blast)),
        fun a ha => absurd ha List.not_mem_nil⟩
    · simp only [if_neg hv]
      exact outcome_some ⟨rfl, List.forall_mem_singleton.mpr (.portScan hlabel hscan.1)⟩
  · simp only [if_neg hscan]
    exact outcome_some ⟨rfl, fun a ha => absurd ha List.not_mem_nil⟩

theorem outcome_justified_sccCheck {g : DirectedGraph} (hgraph : s.graph = buildGraph g evt) :
    Outcome True (fun fuel => eng.sccCheck env fuel n s evt) fun r =>
      ∀ a ∈ r.2, Justified eng g evt a := by
  cases hperiod : sccPeriod eng.cfg with
  | none =>
    have hnone : ∀ fuel, eng.sccCheck env fuel n s evt = none := fun fuel => by
      rw [sccCheck, hperiod]
      rfl
    simp only [hnone]
    exact outcome_none trivial
  | some period =>
    rcases outcome_sccCheck eng env n s evt hperiod with ⟨r, hret, hstate, hcheck⟩ | ⟨-, hnone⟩
    · refine Or.inl ⟨r, hret, fun a ha => ?_⟩
      have hsame : r.1.graph = buildGraph g evt := by rw [hstate, hgraph]
      by_cases hdue : r.1.totalEvents % period = 0
      · have hpart := hcheck.partition hdue
        have halerts := hcheck.alerts_eq hdue
        rw [hsame] at hpart
        split_ifs at halerts
        · rw [halerts.1] at ha
          obtain ⟨scc, hscc, rfl⟩ := List.mem_map.mp ha
          obtain ⟨hmem, hlength⟩ := List.mem_filter.mp hscc
          refine .sccAnomaly (hpart.nodup_of_mem hmem) ((hpart.isNontrivial_iff ?_).mpr
            ⟨scc, hmem, of_decide_eq_true hlength, rfl⟩)
          exact fun x y _ e => e.mem_vertices.2
        · rw [halerts.1] at ha
          exact absurd ha List.not_mem_nil
      · rw [(hcheck.skipped hdue).1] at ha
        exact absurd ha List.not_mem_nil
    · exact Or.inr ⟨trivial, hnone⟩

/-- The alerts of one event are justified by the graph before it. -/
theorem justified_of_step
    (h : Returns (fun fuel => eng.step env fuel n s evt) (s', out)) :
    ∀ a ∈ out.alerts, Justified eng s.graph evt a := by
  -- what comes before the alerts does not depend on the fuel
  obtain ⟨F, hF⟩ := id h
  have hstep : eng.step env F n s evt = some (s', out) := hF F le_rfl
  unfold step at hstep
  simp only [Option.bind_eq_bind, Option.bind_eq_some_iff] at hstep
  obtain ⟨srcLabel, hsrc, dstLabel, hdst, e, he, freq, hfreq, -⟩ := hstep
  have heq : (fun fuel => eng.step env fuel n s evt) = fun fuel =>
      (eng.portScan env fuel n { (entered eng.cfg s evt).1 with freqEstimator := e } evt srcLabel
        freq).bind fun r =>
      (eng.sccCheck env fuel n { r.1 with graph := buildGraph r.1.graph evt } evt).bind fun r' =>
      some (r'.1, ({ windowReset := (entered eng.cfg s evt).2, alerts := r.2 ++ r'.2 } : Output)) := by
    funext fuel
    unfold step
    simp only [hsrc, hdst, he, hfreq, Option.bind_eq_bind, Option.bind_some]
    rfl
  have hgraph : (entered eng.cfg s evt).1.graph = s.graph := by rw [entered_eq]
  rw [heq] at h
  refine (((outcome_justified_portScan hsrc).bind fun r hr =>
    (outcome_justified_sccCheck (g := s.graph) ?_).bind fun r' hr' =>
      outcome_some (Q := fun r : State × Output => ∀ a ∈ r.2.alerts, Justified eng s.graph evt a)
        ?_).of_returns h)
  · show buildGraph r.1.graph evt = _
    rw [hr.1, hgraph]
  · rw [hgraph] at hr
    exact List.forall_mem_append.mpr ⟨hr.2, hr'⟩

/-! ## Runs -/

/-- **Every alert of every run is justified** by the events before it. -/
theorem justified_of_reaches (hsetup : setup env cfg = some (eng, s₀))
    (h : Reaches env cfg events s outs) {a : Soc.Alert} (ha : a ∈ outs.flatMap (·.alerts)) :
    ∃ pre evt post, events = pre ++ evt :: post ∧ Justified eng (graphOf pre) evt a := by
  induction events using List.reverseRecOn generalizing s outs with
  | nil =>
    obtain ⟨-, rfl⟩ := h.unique (reaches_nil hsetup)
    exact absurd ha List.not_mem_nil
  | append_singleton events e ih =>
    obtain ⟨s₁, outs₁, out, hrun, hstep, rfl⟩ := (reaches_concat hsetup).mp h
    rw [List.flatMap_append, List.flatMap_singleton, List.mem_append] at ha
    rcases ha with ha | ha
    · obtain ⟨pre, evt, post, rfl, hjust⟩ := ih hrun ha
      exact ⟨pre, evt, post ++ [e], by simp, hjust⟩
    · have hjust := justified_of_step hstep a ha
      rw [hrun.counters.1] at hjust
      exact ⟨events, e, [], rfl, hjust⟩

end Engine
