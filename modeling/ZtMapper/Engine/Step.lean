/-
# What one event does

`Stepped` says everything the loop body can do to the state and the output,
and `Defined` when it is defined; `outcome_step` ties the two to the code.  The
set-up and the runs follow: `Reaches` is a run that returns, and
`reaches_concat` takes it apart event by event.
-/
import ZtMapper.Engine.Engine

open Frequency Loop Pipeline Scc Unordered

namespace Engine

variable {eng : Engine} {env : Env} {n : ℕ} {s s' : State} {evt : NetworkEvent} {out : Output}

/-! ## The communication graph -/

@[simp] theorem vertices_buildGraph (g : DirectedGraph) (evt : NetworkEvent) :
    (buildGraph g evt).vertices = insert evt.dstIp (insert evt.srcIp g.vertices) := by
  have hadd : ∀ (g : DirectedGraph) (v : Vertex),
      (if g.hasVertex v then g else g.addVertex v).vertices = insert v g.vertices := by
    intro g v
    split_ifs with h
    · exact (Finset.insert_eq_of_mem (of_decide_eq_true h)).symm
    · exact DirectedGraph.vertices_addVertex g v
  rw [buildGraph, DirectedGraph.vertices_addEdge, hadd, hadd]
  simp

theorem edge_buildGraph {g : DirectedGraph} {evt : NetworkEvent} {a b : Vertex} :
    (buildGraph g evt).Edge a b ↔ (a = evt.srcIp ∧ b = evt.dstIp) ∨ g.Edge a b := by
  have hadd : ∀ (g : DirectedGraph) (v : Vertex),
      (if g.hasVertex v then g else g.addVertex v).Edge a b ↔ g.Edge a b := by
    intro g v
    split_ifs
    · rfl
    · exact DirectedGraph.edge_addVertex
  rw [buildGraph, DirectedGraph.edge_addEdge, hadd, hadd]

theorem numVertices_le_buildGraph (g : DirectedGraph) (evt : NetworkEvent) :
    g.numVertices ≤ (buildGraph g evt).numVertices := by
  refine Finset.card_le_card ?_
  rw [vertices_buildGraph]
  exact (Finset.subset_insert _ _).trans (Finset.subset_insert _ _)

/-! ## The scan phase -/

/-- The condition of the `port_scan` alert. -/
def Scans (eng : Engine) (alerted : Finset UInt32) (evt : NetworkEvent) (freq : UInt64) : Prop :=
  freq > UInt64.ofInt eng.cfg.frequency.threshold.toInt ∧ evt.srcIp ∉ alerted

instance (alerted : Finset UInt32) (freq : UInt64) : Decidable (Scans eng alerted evt freq) :=
  inferInstanceAs (Decidable (_ ∧ _))

/-- The alerts of the scan phase, and the sources alerted after it. -/
def ScanResult (eng : Engine) (evt : NetworkEvent) (srcLabel : Int32) (freq : UInt64)
    (alerted alerted' : Finset UInt32) (alerts : List Soc.Alert) : Prop :=
  if Scans eng alerted evt freq then
    alerted' = insert evt.srcIp alerted ∧ (alerts = [eng.portScanAlert evt srcLabel freq] ∨
      ∃ blast, alerts = [eng.portScanAlert evt srcLabel freq, eng.blastRadiusAlert evt blast])
  else alerted' = alerted ∧ alerts = []

theorem outcome_portScan (eng : Engine) (env : Env) (n : ℕ) (s : State) (evt : NetworkEvent)
    (srcLabel : Int32) (freq : UInt64) :
    Outcome (eng.reachability = .dijkstra ∧ intMax ≤ eng.cfg.reachability.maxHops.toInt ∧
        2 ^ 31 ≤ s.graph.numVertices)
      (fun fuel => eng.portScan env fuel n s evt srcLabel freq) fun r =>
        r.1 = { s with
          alertedSources := r.1.alertedSources
          alertsCount := s.alertsCount + UInt64.ofNat r.2.length } ∧
        ScanResult eng evt srcLabel freq s.alertedSources r.1.alertedSources r.2 := by
  unfold portScan ScanResult
  by_cases hscan : Scans eng s.alertedSources evt freq
  · simp only [if_pos (show freq > _ ∧ evt.srcIp ∉ s.alertedSources from hscan), if_pos hscan]
    by_cases hv : s.graph.hasVertex evt.srcIp = true
    · simp only [if_pos hv]
      refine (eng.reachability.outcome_reachableWithin (env.order n s.graph)
        (of_decide_eq_true hv) eng.cfg.reachability.maxHops.toInt).bind fun blast _ => ?_
      refine outcome_some ⟨?_, rfl, Or.inr ⟨_, rfl⟩⟩
      show ({ s with alertedSources := _, alertsCount := s.alertsCount + 1 + 1 } : State) = _
      rw [UInt64.add_assoc]
      rfl
    · simp only [if_neg hv]
      exact outcome_some ⟨rfl, rfl, Or.inl rfl⟩
  · simp only [if_neg (show ¬ (freq > _ ∧ evt.srcIp ∉ s.alertedSources) from hscan), if_neg hscan]
    refine outcome_some ⟨?_, rfl, rfl⟩
    show s = { s with alertsCount := s.alertsCount + 0 }
    rw [UInt64.add_zero]

/-! ## The SCC check -/

/-- The number of non-trivial components, as the check counts them. -/
def nontrivial (sccs : List Component) : ℕ := sccs.countP fun scc => scc.length > 1

/-- What the check with a period does between the states `s` and `s'`. -/
structure Checked (eng : Engine) (period : UInt64) (evt : NetworkEvent) (s s' : State)
    (alerts : List Soc.Alert) : Prop where
  skipped : s'.totalEvents % period ≠ 0 →
    alerts = [] ∧ s'.lastSccs = s.lastSccs ∧ s'.prevNontrivialSccs = s.prevNontrivialSccs
  partition : s'.totalEvents % period = 0 →
    IsSccPartition s'.graph.vertices s'.graph.Edge s'.lastSccs
  alerts_eq : s'.totalEvents % period = 0 →
    if nontrivial s'.lastSccs > s.prevNontrivialSccs then
      alerts = (s'.lastSccs.filter fun scc => scc.length > 1).map (eng.sccAlert evt) ∧
        s'.prevNontrivialSccs = nontrivial s'.lastSccs
    else alerts = [] ∧ s'.prevNontrivialSccs = s.prevNontrivialSccs
  size : s'.totalEvents % period = 0 → eng.sccDetector = .tarjan → s'.graph.numVertices < 2 ^ 31

/-- The check reads two fields of the state before it. -/
theorem Checked.congr {period : UInt64} {t : State} {alerts : List Soc.Alert}
    (h : Checked eng period evt s s' alerts) (hlast : s.lastSccs = t.lastSccs)
    (hprev : s.prevNontrivialSccs = t.prevNontrivialSccs) : Checked eng period evt t s' alerts where
  skipped := hlast ▸ hprev ▸ h.skipped
  partition := h.partition
  alerts_eq := hprev ▸ h.alerts_eq
  size := h.size

theorem outcome_sccCheck (eng : Engine) (env : Env) (n : ℕ) (s : State) (evt : NetworkEvent)
    {period : UInt64} (hperiod : sccPeriod eng.cfg = some period) :
    Outcome (eng.sccDetector = .tarjan ∧ 2 ^ 31 ≤ s.graph.numVertices)
      (fun fuel => eng.sccCheck env fuel n s evt) fun r =>
        r.1 = { s with
          lastSccs := r.1.lastSccs
          alertsCount := s.alertsCount + UInt64.ofNat r.2.length
          prevNontrivialSccs := r.1.prevNontrivialSccs } ∧
        Checked eng period evt s r.1 r.2 := by
  unfold sccCheck
  simp only [hperiod, Option.bind_eq_bind, Option.bind_some]
  by_cases hcheck : s.totalEvents % period = 0
  · simp only [if_pos hcheck]
    refine (eng.sccDetector.outcome_findSccs (env.order n s.graph) (env.orderT n s.graph)).bind
      fun sccs ⟨hpart, hsize⟩ => ?_
    -- alerts are made when there are more components than were remembered
    by_cases hmore : nontrivial sccs > s.prevNontrivialSccs
    · simp only [if_pos (show sccs.countP _ > s.prevNontrivialSccs from hmore)]
      refine outcome_some ⟨rfl, fun h => absurd hcheck h, fun _ => hpart, fun _ => ?_, fun _ => hsize⟩
      rw [if_pos hmore]
      exact ⟨rfl, rfl⟩
    · simp only [if_neg (show ¬ sccs.countP _ > s.prevNontrivialSccs from hmore)]
      refine outcome_some ⟨?_, fun h => absurd hcheck h, fun _ => hpart, fun _ => ?_, fun _ => hsize⟩
      · show ({ s with lastSccs := sccs } : State)
          = { s with lastSccs := sccs, alertsCount := s.alertsCount + 0 }
        rw [UInt64.add_zero]
      · rw [if_neg hmore]
        exact ⟨rfl, rfl⟩
  · simp only [if_neg hcheck]
    refine outcome_some ⟨?_, fun _ => ⟨rfl, rfl, rfl⟩, fun h => absurd h hcheck,
      fun h => absurd h hcheck, fun h => absurd h hcheck⟩
    show s = { s with alertsCount := s.alertsCount + 0 }
    rw [UInt64.add_zero]

/-! ## One event -/

/-- The state after the window logic, and whether the window was reset. -/
def entered (cfg : PipelineConfig) (s : State) (evt : NetworkEvent) : State × Bool :=
  resetWindow cfg { s with totalEvents := s.totalEvents + 1 } evt.timestampNs

/-- One of the algorithms keeps a number of vertices in an `int`: the timer of
`Tarjan`, or the distances of Dijkstra's algorithm without a smaller bound. -/
def CountsVertices (eng : Engine) : Prop :=
  eng.sccDetector = .tarjan ∨
    (eng.reachability = .dijkstra ∧ intMax ≤ eng.cfg.reachability.maxHops.toInt)

/-- The undefined operations that the loop body does not run into. -/
structure Defined (eng : Engine) (s : State) (evt : NetworkEvent) : Prop where
  labelled : ∀ ip, ∃ l, eng.ipClassifier.lookup ip = some l
  counted : ∃ e freq, (entered eng.cfg s evt).1.freqEstimator.recordU32 evt.srcIp = some e ∧
    e.estimateU32 evt.srcIp = some freq
  period : ∃ m, sccPeriod eng.cfg = some m
  size : eng.CountsVertices → (buildGraph s.graph evt).numVertices < 2 ^ 31

/-- **Everything the loop body does**, where it is defined. -/
structure Stepped (eng : Engine) (s : State) (evt : NetworkEvent) (s' : State) (out : Output) :
    Prop where
  windowReset_eq : out.windowReset = (entered eng.cfg s evt).2
  windowStartNs_eq : s'.windowStartNs = (entered eng.cfg s evt).1.windowStartNs
  totalEvents_eq : s'.totalEvents = s.totalEvents + 1
  graph_eq : s'.graph = buildGraph s.graph evt
  alerts_eq : ∃ scanAlerts sccAlerts, out.alerts = scanAlerts ++ sccAlerts ∧
    (∃ srcLabel freq, eng.ipClassifier.lookup evt.srcIp = some srcLabel ∧
      (entered eng.cfg s evt).1.freqEstimator.recordU32 evt.srcIp = some s'.freqEstimator ∧
      s'.freqEstimator.estimateU32 evt.srcIp = some freq ∧
      ScanResult eng evt srcLabel freq (entered eng.cfg s evt).1.alertedSources s'.alertedSources
        scanAlerts) ∧
    ∃ period, sccPeriod eng.cfg = some period ∧ Checked eng period evt s s' sccAlerts

/-- The event is recorded, and no source that was alerted is forgotten. -/
theorem Stepped.counted (h : Stepped eng s evt s' out) :
    (entered eng.cfg s evt).1.freqEstimator.recordU32 evt.srcIp = some s'.freqEstimator ∧
      (entered eng.cfg s evt).1.alertedSources ⊆ s'.alertedSources := by
  obtain ⟨scanAlerts, sccAlerts, -, ⟨srcLabel, freq, -, hrec, -, hscan⟩, -⟩ := h.alerts_eq
  refine ⟨hrec, ?_⟩
  unfold ScanResult at hscan
  split_ifs at hscan
  · rw [hscan.1]
    exact Finset.subset_insert _ _
  · rw [hscan.1]

/-- The window logic leaves the rest of the state alone. -/
theorem entered_eq (cfg : PipelineConfig) (s : State) (evt : NetworkEvent) :
    (entered cfg s evt).1 = { s with
      totalEvents := s.totalEvents + 1
      freqEstimator := (entered cfg s evt).1.freqEstimator
      alertedSources := (entered cfg s evt).1.alertedSources
      windowStartNs := (entered cfg s evt).1.windowStartNs } := by
  unfold entered resetWindow
  dsimp only
  split_ifs <;> rfl

/-- The two alert phases, on the state `w` after the estimate was taken. -/
theorem outcome_alertPhases (eng : Engine) (env : Env) (n : ℕ) (w : State) (evt : NetworkEvent)
    (srcLabel : Int32) (freq : UInt64) (reset : Bool) :
    Outcome ((∃ m, sccPeriod eng.cfg = some m) →
        eng.CountsVertices ∧ 2 ^ 31 ≤ (buildGraph w.graph evt).numVertices)
      (fun fuel => (eng.portScan env fuel n w evt srcLabel freq).bind fun r =>
        (eng.sccCheck env fuel n { r.1 with graph := buildGraph r.1.graph evt } evt).bind fun r' =>
          some (r'.1, ({ windowReset := reset, alerts := r.2 ++ r'.2 } : Output)))
      fun r => r.1 = { w with
          graph := buildGraph w.graph evt
          lastSccs := r.1.lastSccs
          alertsCount := w.alertsCount + UInt64.ofNat r.2.alerts.length
          alertedSources := r.1.alertedSources
          prevNontrivialSccs := r.1.prevNontrivialSccs } ∧
        r.2.windowReset = reset ∧
        ∃ scanAlerts sccAlerts, r.2.alerts = scanAlerts ++ sccAlerts ∧
          ScanResult eng evt srcLabel freq w.alertedSources r.1.alertedSources scanAlerts ∧
          ∃ period, sccPeriod eng.cfg = some period ∧ Checked eng period evt w r.1 sccAlerts := by
  cases hperiod : sccPeriod eng.cfg with
  | none =>
    -- the check is undefined, whatever the scan phase does
    have hnone : ∀ fuel t, eng.sccCheck env fuel n t evt = none := fun fuel t => by
      rw [sccCheck, hperiod]
      rfl
    simp only [hnone, Option.bind_none, Option.bind_fun_none]
    exact outcome_none fun ⟨m, hm⟩ => absurd hm (by simp)
  | some period =>
    refine ((outcome_portScan eng env n w evt srcLabel freq).weaken ?_).bind fun r hr => ?_
    · rintro ⟨hd, hhops, hsize⟩ -
      exact ⟨Or.inr ⟨hd, hhops⟩, hsize.trans (numVertices_le_buildGraph w.graph evt)⟩
    obtain ⟨t, scanAlerts⟩ := r
    obtain ⟨hstate, hscan⟩ := hr
    dsimp only at hstate hscan ⊢
    have hgraph : t.graph = w.graph := by rw [hstate]
    have hlast : t.lastSccs = w.lastSccs := by rw [hstate]
    have hprev : t.prevNontrivialSccs = w.prevNontrivialSccs := by rw [hstate]
    refine ((outcome_sccCheck eng env n _ evt hperiod).weaken ?_).bind fun r hr => ?_
    · rintro ⟨ht, hsize⟩ -
      exact ⟨Or.inl ht, hgraph ▸ hsize⟩
    obtain ⟨s', sccAlerts⟩ := r
    obtain ⟨hstate', hcheck⟩ := hr
    dsimp only at hstate' hcheck ⊢
    have halerted : s'.alertedSources = t.alertedSources := by rw [hstate']
    refine outcome_some ⟨?_, rfl, scanAlerts, sccAlerts, rfl, halerted.symm ▸ hscan, period, rfl,
      hcheck.congr hlast hprev⟩
    rw [hstate', hstate]
    simp [UInt64.ofNat_add, UInt64.add_assoc]

theorem outcome_step (eng : Engine) (env : Env) (n : ℕ) (s : State) (evt : NetworkEvent) :
    Outcome (¬ Defined eng s evt) (fun fuel => eng.step env fuel n s evt) fun r =>
      Stepped eng s evt r.1 r.2 := by
  have hentered := entered_eq eng.cfg s evt
  unfold step
  dsimp only
  rw [show resetWindow eng.cfg { s with totalEvents := s.totalEvents + 1 } evt.timestampNs
    = entered eng.cfg s evt from rfl]
  generalize hw : entered eng.cfg s evt = w at hentered ⊢
  obtain ⟨w, reset⟩ := w
  dsimp only at hentered ⊢
  -- outside `Defined` one of the four calls before the alerts has no result
  cases hsrc : eng.ipClassifier.lookup evt.srcIp with
  | none =>
    refine outcome_none fun h => ?_
    obtain ⟨l, hl⟩ := h.labelled evt.srcIp
    exact absurd (hsrc.symm.trans hl) (by simp)
  | some srcLabel =>
  cases hdst : eng.ipClassifier.lookup evt.dstIp with
  | none =>
    refine outcome_none fun h => ?_
    obtain ⟨l, hl⟩ := h.labelled evt.dstIp
    exact absurd (hdst.symm.trans hl) (by simp)
  | some dstLabel =>
  cases hrec : w.freqEstimator.recordU32 evt.srcIp with
  | none =>
    refine outcome_none fun h => ?_
    obtain ⟨e, freq, he, -⟩ := h.counted
    rw [hw] at he
    exact absurd (hrec.symm.trans he) (by simp)
  | some e =>
  cases hest : e.estimateU32 evt.srcIp with
  | none =>
    simp only [Option.bind_eq_bind, Option.bind_some, hest, Option.bind_none]
    refine outcome_none fun h => ?_
    obtain ⟨e', freq, he, hf⟩ := h.counted
    rw [hw] at he
    obtain rfl := Option.some.inj (hrec.symm.trans he)
    exact absurd (hest.symm.trans hf) (by simp)
  | some freq =>
  simp only [Option.bind_eq_bind, Option.bind_some, hest]
  have hphases := outcome_alertPhases eng env n { w with freqEstimator := e } evt srcLabel freq reset
  have hgraph : w.graph = s.graph := by rw [hentered]
  have hlast : w.lastSccs = s.lastSccs := by rw [hentered]
  have hprev : w.prevNontrivialSccs = s.prevNontrivialSccs := by rw [hentered]
  have htotal : w.totalEvents = s.totalEvents + 1 := by rw [hentered]
  refine (hphases.weaken fun hbad h => ?_).imp ?_ id
  · obtain ⟨hdet, hsize⟩ := hbad h.period
    exact absurd (h.size hdet) (not_lt.mpr (hgraph ▸ hsize))
  · rintro ⟨⟨s', out⟩, hret, hstate, hreset, scanAlerts, sccAlerts, hout, hscan, period, hperiod,
      hcheck⟩
    dsimp only at hstate hreset hout hscan hcheck
    refine ⟨(s', out), hret, ⟨by rw [hw]; exact hreset, ?_, ?_, ?_, scanAlerts, sccAlerts, hout,
      ⟨srcLabel, freq, hsrc, ?_, ?_, ?_⟩, period, hperiod, hcheck.congr hlast hprev⟩⟩
    · rw [hw, hstate]
    · rw [hstate]
      exact htotal
    · rw [hstate]
      show buildGraph w.graph evt = _
      rw [hgraph]
    · rw [hw, hstate]
      exact hrec
    · rw [hstate]
      exact hest
    · rw [hw]
      exact hscan

end Engine
