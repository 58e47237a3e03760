/-
# The windows of the engine

A run of the engine follows the tumbling windows of its events, its `port_scan`
alerts are the raised entries of their log, and every event of a run is defined
where the algorithms do not overflow an `int`.
-/
import ZtMapper.Engine.Runs
import ZtMapper.Frequency.Watch

open Frequency Loop Pipeline Tumbling WindowLog

namespace Engine

variable {eng : Engine} {env : Env} {cfg : PipelineConfig} {s₀ s s' : State} {evt : NetworkEvent}
  {events : List NetworkEvent} {outs : List Output} {out : Output}

/-- The windows of the events, under a configuration. -/
def windowsOf (cfg : PipelineConfig) (events : List NetworkEvent) : Windows NetworkEvent :=
  windows NetworkEvent.timestampNs (windowNs cfg) events

theorem windowsOf_append (cfg : PipelineConfig) (events : List NetworkEvent) (evt : NetworkEvent) :
    windowsOf cfg (events ++ [evt])
      = count (advance (windowNs cfg) (windowsOf cfg events) evt.timestampNs) evt :=
  windows_append events evt

/-- The number of the window that event `i` is counted in, from the resets logged so far. -/
def windowOf (outs : List Output) (i : ℕ) : ℕ := (outs.take (i + 1)).countP (·.windowReset)

/-! ## The window logic -/

/-- The window logic in its three cases. -/
theorem entered_eq_of_start (cfg : PipelineConfig) (s : State) (evt : NetworkEvent) :
    (entered cfg s evt).2 = ends (windowNs cfg) s.windowStartNs evt.timestampNs ∧
      (entered cfg s evt).1.windowStartNs
        = startAt (windowNs cfg) s.windowStartNs evt.timestampNs ∧
      if ends (windowNs cfg) s.windowStartNs evt.timestampNs then
        (entered cfg s evt).1.freqEstimator = s.freqEstimator.reset ∧
          (entered cfg s evt).1.alertedSources = ∅
      else
        (entered cfg s evt).1.freqEstimator = s.freqEstimator ∧
          (entered cfg s evt).1.alertedSources = s.alertedSources := by
  unfold entered resetWindow startAt
  dsimp only
  by_cases h0 : s.windowStartNs = 0
  · -- a new window starts at the event, which cannot be past its end
    have hends : ends (windowNs cfg) s.windowStartNs evt.timestampNs = false := by simp [ends, h0]
    have hshort : ¬ evt.timestampNs - evt.timestampNs > windowNs cfg := by
      rw [UInt64.sub_self]
      exact UInt64.not_lt_zero
    rw [if_pos h0, if_neg hshort, hends]
    simp [h0]
  · rw [if_neg h0]
    by_cases hlong : evt.timestampNs - s.windowStartNs > windowNs cfg
    · have hends : ends (windowNs cfg) s.windowStartNs evt.timestampNs = true := by
        simpa [ends, h0] using hlong
      rw [if_pos hlong, hends]
      simp
    · have hends : ends (windowNs cfg) s.windowStartNs evt.timestampNs = false := by
        simpa [ends, h0] using hlong
      rw [if_neg hlong, hends]
      simp [h0]

/-- The start of the window, and the resets logged, are those of the windows of the events. -/
structure InWindows (cfg : PipelineConfig) (events : List NetworkEvent) (s : State)
    (outs : List Output) : Prop where
  windowStartNs_eq : s.windowStartNs = (windowsOf cfg events).start
  number_eq : outs.countP (·.windowReset) = (windowsOf cfg events).number
  windows_eq : (windowsOf cfg events).log.map (·.1) = (List.range outs.length).map (windowOf outs)

theorem inWindows_step (h : InWindows cfg events s outs) (hcfg : eng.cfg = cfg)
    (hstep : Stepped eng s evt s' out) : InWindows cfg (events ++ [evt]) s' (outs ++ [out]) := by
  obtain ⟨hreset, hstart, -⟩ := entered_eq_of_start cfg s evt
  have hout : out.windowReset
      = ends (windowNs cfg) (windowsOf cfg events).start evt.timestampNs := by
    rw [hstep.windowReset_eq, hcfg, hreset, h.windowStartNs_eq]
  have hnumber : (outs ++ [out]).countP (·.windowReset)
      = (advance (windowNs cfg) (windowsOf cfg events) evt.timestampNs).number := by
    rw [List.countP_append, h.number_eq, List.countP_singleton, hout, advance]
    split_ifs <;> rfl
  refine ⟨?_, ?_, ?_⟩
  · rw [hstep.windowStartNs_eq, hcfg, hstart, h.windowStartNs_eq, windowsOf_append]
    rfl
  · rw [hnumber, windowsOf_append]
    rfl
  · rw [windowsOf_append, List.length_append, List.length_singleton, List.range_succ,
      List.map_append, List.map_singleton]
    show ((windowsOf cfg events).log ++ [(_, evt)]).map (fun p : ℕ × NetworkEvent => p.1) = _
    rw [List.map_append, List.map_singleton, h.windows_eq]
    congr 1
    · refine List.map_congr_left fun i hi => ?_
      rw [windowOf, windowOf, List.take_append_of_le_length (List.mem_range.mp hi)]
    · rw [windowOf, List.take_of_length_le (by simp), hnumber]

theorem Reaches.inWindows (h : Reaches env cfg events s outs) : InWindows cfg events s outs := by
  obtain ⟨eng, s₀, hsetup⟩ := h.exists_setup
  have hcreated := created_of_setup hsetup
  refine h.invariant (P := InWindows cfg) hsetup ⟨?_, rfl, rfl⟩
    fun events evt s outs s' out _ h hstep => inWindows_step h hcreated.cfg_eq hstep
  rw [hcreated.state_eq]
  rfl

/-! ## The estimator and the alerts -/

/-- The threshold that frequencies are compared with. -/
def thresholdOf (cfg : PipelineConfig) : ℕ :=
  (UInt64.ofInt cfg.frequency.threshold.toInt).toNat

/-- An output holds a `port_scan` alert, and it is about the event. -/
def ScanOutput (evt : NetworkEvent) (out : Output) : Prop :=
  (∃ a ∈ out.alerts, a.type = "port_scan") ∧
    ∀ a ∈ out.alerts, a.type = "port_scan" →
      a.source = ipToString evt.srcIp ∧ a.timestampNs = evt.timestampNs

/-- The estimator and the alerts are those of the log of the windows. -/
structure Scanning (cfg : PipelineConfig) (e₀ : Estimator) (events : List NetworkEvent) (s : State)
    (outs : List Output) : Prop where
  watch : Watch NetworkEvent.srcIp e₀ (thresholdOf cfg) (windowsOf cfg events) s.freqEstimator
    s.alertedSources
  outputs : ∀ i evt out, events[i]? = some evt → outs[i]? = some out →
    if Raised NetworkEvent.srcIp e₀.estimateAfter (thresholdOf cfg) (windowsOf cfg events).log i
    then ScanOutput evt out else ∀ a ∈ out.alerts, a.type ≠ "port_scan"

/-- The estimator and the alerted sources after the window logic. -/
theorem watch_entered {e₀ : Estimator} (hfresh : e₀.Fresh)
    (hwatch : Watch NetworkEvent.srcIp e₀ (thresholdOf cfg) (windowsOf cfg events) s.freqEstimator
      s.alertedSources)
    (hstart : s.windowStartNs = (windowsOf cfg events).start) (evt : NetworkEvent) :
    Watch NetworkEvent.srcIp e₀ (thresholdOf cfg)
      (advance (windowNs cfg) (windowsOf cfg events) evt.timestampNs)
      (entered cfg s evt).1.freqEstimator (entered cfg s evt).1.alertedSources := by
  obtain ⟨-, -, hkeep⟩ := entered_eq_of_start cfg s evt
  rw [hstart] at hkeep
  by_cases hends : ends (windowNs cfg) (windowsOf cfg events).start evt.timestampNs = true
  · rw [if_pos hends] at hkeep
    rw [hkeep.1, hkeep.2, advance, if_pos hends]
    exact hwatch.ended hfresh _
  · rw [if_neg hends] at hkeep
    rw [hkeep.1, hkeep.2, advance, if_neg hends]
    exact hwatch.restart _

theorem type_sccAlert (eng : Engine) (evt : NetworkEvent) (scc : Component) :
    (eng.sccAlert evt scc).type = "scc_anomaly" :=
  rfl

/-- The alerts of the check are `scc_anomaly` alerts. -/
theorem Checked.type_eq {period : UInt64} {alerts : List Soc.Alert}
    (h : Checked eng period evt s s' alerts) : ∀ a ∈ alerts, a.type = "scc_anomaly" := by
  by_cases hcheck : s'.totalEvents % period = 0
  · have halerts := h.alerts_eq hcheck
    split_ifs at halerts
    · rw [halerts.1]
      intro a ha
      obtain ⟨scc, -, rfl⟩ := List.mem_map.mp ha
      exact type_sccAlert eng evt scc
    · rw [halerts.1]
      exact fun a ha => absurd ha List.not_mem_nil
  · rw [(h.skipped hcheck).1]
    exact fun a ha => absurd ha List.not_mem_nil

/-- What the `port_scan` alerts among the alerts of an event are. -/
theorem scanOutput_of_result {srcLabel : Int32} {freq : UInt64} {alerted alerted' : Finset UInt32}
    {scanAlerts sccAlerts : List Soc.Alert}
    (hscan : ScanResult eng evt srcLabel freq alerted alerted' scanAlerts)
    (hscc : ∀ a ∈ sccAlerts, a.type = "scc_anomaly") (hout : out.alerts = scanAlerts ++ sccAlerts) :
    if Scans eng alerted evt freq then ScanOutput evt out
    else ∀ a ∈ out.alerts, a.type ≠ "port_scan" := by
  have hother : ∀ a ∈ sccAlerts, a.type ≠ "port_scan" := fun a ha => by
    rw [hscc a ha]
    decide
  unfold ScanResult at hscan
  unfold ScanOutput
  rw [hout]
  split_ifs at hscan ⊢
  · obtain ⟨-, h⟩ := hscan
    -- a `blast_radius` alert may follow the `port_scan` alert, and nothing else
    have hmem : ∀ a ∈ scanAlerts, a = eng.portScanAlert evt srcLabel freq ∨
        a.type ≠ "port_scan" := by
      rcases h with rfl | ⟨blast, rfl⟩
      · intro a ha
        exact Or.inl (List.mem_singleton.mp ha)
      · intro a ha
        rcases List.mem_cons.mp ha with rfl | ha
        · exact Or.inl rfl
        · rw [List.mem_singleton.mp ha]
          exact Or.inr (show "blast_radius" ≠ "port_scan" by decide)
    have hfirst : eng.portScanAlert evt srcLabel freq ∈ scanAlerts := by
      rcases h with rfl | ⟨blast, rfl⟩
      · exact List.mem_cons_self
      · exact List.mem_cons_self
    refine ⟨⟨_, List.mem_append_left _ hfirst, rfl⟩, fun a ha htype => ?_⟩
    rcases List.mem_append.mp ha with ha | ha
    · rcases hmem a ha with rfl | hne
      · exact ⟨rfl, rfl⟩
      · exact absurd htype hne
    · exact absurd htype (hother a ha)
  · rw [hscan.2, List.nil_append]
    exact hother

theorem scanning_step {e₀ : Estimator} (hfresh : e₀.Fresh) (h : Scanning cfg e₀ events s outs)
    (hwin : InWindows cfg events s outs) (hlen : outs.length = events.length) (hcfg : eng.cfg = cfg)
    (hstep : Stepped eng s evt s' out) :
    Scanning cfg e₀ (events ++ [evt]) s' (outs ++ [out]) := by
  obtain ⟨scanAlerts, sccAlerts, hout, ⟨srcLabel, freq, -, hrec, hest, hscan⟩, period, -, hcheck⟩ :=
    hstep.alerts_eq
  rw [hcfg] at hrec hscan
  have hentered := watch_entered hfresh h.watch hwin.windowStartNs_eq evt
  obtain ⟨estimator', freq', hrec', hest', -, hwatch, hraised⟩ := hentered.counted hfresh evt
  obtain rfl := Option.some.inj (hrec.symm.trans hrec')
  obtain rfl := Option.some.inj (hest.symm.trans hest')
  have hscans : Scans eng (entered cfg s evt).1.alertedSources evt freq ↔
      thresholdOf cfg < freq.toNat ∧ evt.srcIp ∉ (entered cfg s evt).1.alertedSources := by
    rw [Scans, hcfg, gt_iff_lt, UInt64.lt_iff_toNat_lt]
    rfl
  have hlog : (advance (windowNs cfg) (windowsOf cfg events) evt.timestampNs).log.length
      = events.length :=
    length_log events
  rw [hlog, ← hscans] at hraised
  have houtput := scanOutput_of_result hscan hcheck.type_eq hout
  rw [← windowsOf_append] at hwatch hraised
  refine ⟨?_, fun i evt' out' hevt hout' => ?_⟩
  · have halerted : s'.alertedSources = if thresholdOf cfg < freq.toNat ∧
          evt.srcIp ∉ (entered cfg s evt).1.alertedSources
        then insert evt.srcIp (entered cfg s evt).1.alertedSources
        else (entered cfg s evt).1.alertedSources := by
      unfold ScanResult at hscan
      simp only [hscans] at hscan
      split_ifs at hscan ⊢
      · exact hscan.1
      · exact hscan.1
    rw [halerted]
    exact hwatch
  · rcases Nat.lt_or_ge i events.length with hi | hi
    · -- an earlier entry is raised in the longer log as before
      rw [List.getElem?_append_left hi] at hevt
      rw [List.getElem?_append_left (hlen.symm ▸ hi)] at hout'
      have hold := h.outputs i evt' out' hevt hout'
      have hiff : Raised NetworkEvent.srcIp e₀.estimateAfter (thresholdOf cfg)
          (windowsOf cfg (events ++ [evt])).log i ↔ Raised NetworkEvent.srcIp e₀.estimateAfter
          (thresholdOf cfg) (windowsOf cfg events).log i := by
        rw [windowsOf_append]
        exact raised_append_of_lt (lt_of_lt_of_eq hi hlog.symm) _
      simp only [hiff]
      exact hold
    · have hlast : i = events.length := by
        have hlt := (List.getElem?_eq_some_iff.mp hevt).1
        rw [List.length_append, List.length_singleton] at hlt
        omega
      subst hlast
      rw [List.getElem?_concat_length] at hevt
      rw [← hlen, List.getElem?_concat_length] at hout'
      obtain rfl := Option.some.inj hevt
      obtain rfl := Option.some.inj hout'
      simp only [hraised]
      exact houtput

theorem Reaches.scanning (hsetup : setup env cfg = some (eng, s₀))
    (h : Reaches env cfg events s outs) : Scanning cfg s₀.freqEstimator events s outs := by
  have hcreated := created_of_setup hsetup
  have hfresh := fresh_of_createEstimator hcreated.estimator_eq
  refine h.invariant (P := Scanning cfg s₀.freqEstimator) hsetup ⟨?_, fun i evt out hevt =>
    absurd hevt (by simp)⟩ fun events evt s outs s' out hrun h hstep =>
    scanning_step hfresh h hrun.inWindows hrun.counters.2.2 hcreated.cfg_eq hstep
  rw [hcreated.state_eq]
  exact Watch.init _ _ _ _

/-! ## Runs that return -/

/-- **Every run returns**, where the divisor of the check is defined and no `int`
counts more vertices than it can hold. -/
theorem exists_reaches_of_size (hsetup : setup env cfg = some (eng, s₀))
    (hperiod : ∃ m, sccPeriod cfg = some m) (events : List NetworkEvent)
    (hsize : eng.CountsVertices → (graphOf events).numVertices < 2 ^ 31) :
    ∃ s outs, Reaches env cfg events s outs := by
  have hcreated := created_of_setup hsetup
  refine exists_reaches hsetup events fun pre evt hpre s outs hrun => ?_
  have hfresh := fresh_of_createEstimator hcreated.estimator_eq
  have hentered := watch_entered hfresh (hrun.scanning hsetup).watch hrun.inWindows.windowStartNs_eq
    evt
  obtain ⟨estimator', freq, hrec, hest, -⟩ := hentered.counted hfresh evt
  refine ⟨hcreated.labelled, ⟨estimator', freq, ?_, hest⟩, ?_, fun hcounts => ?_⟩
  · rw [hcreated.cfg_eq]
    exact hrec
  · rw [hcreated.cfg_eq]
    exact hperiod
  · rw [hrun.counters.1, ← graphOf_append]
    exact lt_of_le_of_lt (Finset.card_le_card (vertices_graphOf_mono hpre)) (hsize hcounts)

end Engine
