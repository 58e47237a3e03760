/-
# The engine and its distilled version

`PortScanDetector` is the part of the engine that detects port scans.  The engine
with the Count-Min Sketch raises the `port_scan` alerts of the detector whose
sketch is `2048 × 5` (`scansOf_eq`), since `register_all_algorithms` fixes these
dimensions; so it raises those of the detector with the configured dimensions exactly
when it starts and they are the same (`agrees_iff`).
-/
import ZtMapper.Engine.EventLines
import ZtMapper.Engine.Final
import ZtMapper.Engine.Start
import ZtMapper.Frequency.Dimensions
import ZtMapper.Portscan.Agreement

open Frequency Loop Pipeline Tumbling WindowLog

namespace Engine

variable {eng : Engine} {env : Env} {cfg : PipelineConfig} {s₀ s s' : State} {evt : NetworkEvent}
  {events : List NetworkEvent} {outs : List Output} {out : Output}

/-! ## What is compared -/

/-- The number after `{"estimated_frequency":`. -/
def frequencyOf (details : String) : ℕ :=
  Nat.ofDigitChars 10 ((details.toList.drop 23).takeWhile Char.isDigit) 0

/-- The `port_scan` alerts of a run: their sources, frequencies and times. -/
def scansOf (outs : List Output) : List (String × ℕ × UInt64) :=
  ((outs.flatMap (·.alerts)).filter fun a => a.type = "port_scan").map fun a =>
    (a.source, frequencyOf a.details, a.timestampNs)

/-- The alerts of the detector. -/
def toolScans (d : Portscan.PortScanDetector) : List (String × ℕ × UInt64) :=
  d.alerts.map fun a => (ipToString a.srcIp, a.freq.toNat, a.timestampNs)

/-- The event as the detector reads it. -/
def toolEvent (evt : NetworkEvent) : Portscan.NetworkEvent where
  srcIp := evt.srcIp
  dstIp := evt.dstIp
  dstPort := evt.dstPort
  timestampNs := evt.timestampNs

/-- The options of the detector for a configuration of the engine. -/
def toolConfig (cfg : PipelineConfig) : Portscan.DetectorConfig where
  algo := "cms"
  cmsWidth := cfg.frequency.width.toUInt32
  cmsDepth := cfg.frequency.depth.toUInt32
  threshold := UInt64.ofNat cfg.frequency.threshold.toInt.toNat
  windowNs := UInt64.ofNat (cfg.windowSeconds.toInt.toNat * 1000000000)

/-- The options with the dimensions that `register_all_algorithms` fixes. -/
def registeredConfig (cfg : PipelineConfig) : Portscan.DetectorConfig :=
  { toolConfig cfg with
    cmsWidth := 2048
    cmsDepth := 5 }

/-- What `main` emits for the loaded configuration: the `port_scan` alerts of the loop over the
events, or nothing when it ends before the loop. -/
structure MainEmits {F : Type} [DecidableEq F] (w : ConfigLoader.World F) (sinks : Soc.Sinks F)
    (env : Env) (c : ConfigLoader.PipelineConfig) (cfg : PipelineConfig)
    (events : List NetworkEvent) (scans : List (String × ℕ × UInt64)) : Prop where
  loop : (∃ r, ConfigLoader.start w env c cfg sinks = some r) →
    ∃ s outs, Reaches env cfg events s outs ∧ scansOf outs = scans
  ended : (¬ ∃ r, ConfigLoader.start w env c cfg sinks = some r) → scans = []

/-- The detector runs on the events, and the engine emits its alerts. -/
def Agrees {F : Type} [DecidableEq F] (w : ConfigLoader.World F) (sinks : Soc.Sinks F) (env : Env)
    (c : ConfigLoader.PipelineConfig) (cfg : PipelineConfig) (events : List NetworkEvent) : Prop :=
  ∃ d douts, Portscan.runAlgo (toolConfig cfg) "cms" (events.map toolEvent) = some (d, douts) ∧
    MainEmits w sinks env c cfg events (toolScans d)

/-! ## The alerts of one event -/

theorem frequencyOf_append (n : ℕ) (rest : String) :
    frequencyOf ("\x7b\"estimated_frequency\":" ++ toString n ++ ",\"threshold\":" ++ rest) = n := by
  have hkey : "\x7b\"estimated_frequency\":".toList.length = 23 := by decide
  have hcomma : ",\"threshold\":".toList = ',' :: "\"threshold\":".toList := by decide
  have hdigit : ∀ c ∈ Nat.toDigits 10 n, c.isDigit = true := fun c hc =>
    Nat.isDigit_of_mem_toDigits (by decide) (by decide) hc
  rw [frequencyOf, String.toList_append, String.toList_append, String.toList_append,
    List.append_assoc, List.append_assoc, List.drop_left' hkey, Nat.toString_eq_repr,
    Nat.toList_repr, hcomma, List.cons_append, List.takeWhile_append_of_pos hdigit,
    List.takeWhile_cons_of_neg (by decide), List.append_nil]
  exact Nat.ofDigitChars_toDigits (by decide) (by decide)

theorem frequencyOf_portScanDetails (freq : UInt64) (threshold srcLabel : Int32) (srcIp : UInt32) :
    frequencyOf (portScanDetails freq threshold srcLabel srcIp) = freq.toNat := by
  unfold portScanDetails
  -- what follows the threshold's key is any text
  rw [String.append_assoc, String.append_assoc, String.append_assoc, String.append_assoc,
    String.append_assoc, String.append_assoc]
  exact frequencyOf_append _ _

theorem scansOf_append (outs outs' : List Output) :
    scansOf (outs ++ outs') = scansOf outs ++ scansOf outs' := by
  rw [scansOf, List.flatMap_append, List.filter_append, List.map_append]
  rfl

/-- The `port_scan` alerts of an event. -/
theorem scansOf_singleton {srcLabel : Int32} {freq : UInt64} {alerted alerted' : Finset UInt32}
    {scanAlerts sccAlerts : List Soc.Alert}
    (hscan : ScanResult eng evt srcLabel freq alerted alerted' scanAlerts)
    (hscc : ∀ a ∈ sccAlerts, a.type = "scc_anomaly") (hout : out.alerts = scanAlerts ++ sccAlerts) :
    scansOf [out] = if Scans eng alerted evt freq
      then [(ipToString evt.srcIp, freq.toNat, evt.timestampNs)] else [] := by
  have hnone : (sccAlerts.filter fun a => a.type = "port_scan") = [] := by
    refine List.filter_eq_nil_iff.mpr fun a ha => ?_
    rw [hscc a ha]
    decide
  have hport : frequencyOf (eng.portScanAlert evt srcLabel freq).details = freq.toNat :=
    frequencyOf_portScanDetails _ _ _ _
  rw [scansOf, List.flatMap_singleton, hout, List.filter_append, hnone, List.append_nil]
  unfold ScanResult at hscan
  split_ifs at hscan ⊢
  · rcases hscan.2 with rfl | ⟨blast, rfl⟩
    · rw [List.filter_cons_of_pos (by rfl), List.filter_nil, List.map_singleton, hport]
      rfl
    · rw [List.filter_cons_of_pos (by rfl), List.filter_cons_of_neg (by
        show ¬ decide ("blast_radius" = "port_scan") = true
        decide), List.filter_nil, List.map_singleton, hport]
      rfl
  · rw [hscan.2]
    rfl

/-! ## The detector inside the engine -/

/-- The detector is in the state of the engine, and has raised its alerts. -/
structure Tracks (tcfg : Portscan.DetectorConfig) (s : State) (outs : List Output)
    (d : Portscan.PortScanDetector) : Prop where
  cfg_eq : d.cfg = tcfg
  estimator_eq : d.estimator = s.freqEstimator
  alerted_eq : d.alertedInWindow = s.alertedSources
  start_eq : d.windowStartNs = s.windowStartNs
  scans_eq : scansOf outs = toolScans d

variable {tcfg : Portscan.DetectorConfig} {d : Portscan.PortScanDetector}

/-- The window logic. -/
theorem Tracks.entered (h : Tracks tcfg s outs d) (hwindow : tcfg.windowNs = windowNs cfg)
    (evt : NetworkEvent) :
    Tracks tcfg (entered cfg s evt).1 outs (d.maybeResetWindow evt.timestampNs) := by
  obtain ⟨-, hstart, hkeep⟩ := entered_eq_of_start cfg s evt
  have hscans : scansOf outs = toolScans (d.maybeResetWindow evt.timestampNs) := by
    rw [toolScans, Portscan.alerts_maybeResetWindow]
    exact h.scans_eq
  refine ⟨?_, ?_, ?_, ?_, hscans⟩
  · rw [Portscan.cfg_maybeResetWindow, h.cfg_eq]
  · rw [Portscan.maybeResetWindow_eq, h.cfg_eq, hwindow, h.start_eq]
    split_ifs at hkeep ⊢
    · rw [hkeep.1, ← h.estimator_eq]
    · rw [hkeep.1, ← h.estimator_eq]
  · rw [Portscan.maybeResetWindow_eq, h.cfg_eq, hwindow, h.start_eq]
    split_ifs at hkeep ⊢
    · rw [hkeep.2]
    · rw [hkeep.2, ← h.alerted_eq]
  · rw [Portscan.windowStartNs_maybeResetWindow, h.cfg_eq, hwindow, h.start_eq, hstart]

/-- **One event**: the detector raises the `port_scan` alert of the engine. -/
theorem Tracks.step (h : Tracks tcfg s outs d) (hwindow : tcfg.windowNs = windowNs eng.cfg)
    (hthreshold : tcfg.threshold = UInt64.ofInt eng.cfg.frequency.threshold.toInt)
    (hstep : Stepped eng s evt s' out) :
    ∃ d' emitted, d.process (toolEvent evt) = some (d', emitted) ∧
      Tracks tcfg s' (outs ++ [out]) d' := by
  obtain ⟨scanAlerts, sccAlerts, hout, ⟨srcLabel, freq, -, hrec, hest, hscan⟩, period, -, hcheck⟩ :=
    hstep.alerts_eq
  have hnew := scansOf_singleton hscan hcheck.type_eq hout
  have h₁ : Tracks tcfg _ outs (d.maybeResetWindow (toolEvent evt).timestampNs) :=
    h.entered hwindow evt
  have hstart := hstep.windowStartNs_eq
  -- both go on from the window that the event falls into
  generalize Engine.entered eng.cfg s evt = w at hrec hscan hnew h₁ hstart
  obtain ⟨w, reset⟩ := w
  dsimp only at hrec hscan hnew h₁ hstart
  unfold Portscan.PortScanDetector.process
  generalize d.maybeResetWindow (toolEvent evt).timestampNs = d₁ at h₁ ⊢
  have hrec' : d₁.estimator.recordU32 (toolEvent evt).srcIp = some s'.freqEstimator := by
    rw [h₁.estimator_eq]
    exact hrec
  have hest' : s'.freqEstimator.estimateU32 (toolEvent evt).srcIp = some freq := hest
  simp only [Option.bind_eq_bind, hrec', hest', Option.bind_some]
  have hcond : freq > d₁.cfg.threshold ∧ (toolEvent evt).srcIp ∉ d₁.alertedInWindow
      ↔ Scans eng w.alertedSources evt freq := by
    rw [h₁.cfg_eq, h₁.alerted_eq, hthreshold]
    rfl
  unfold ScanResult at hscan
  by_cases hscans : Scans eng w.alertedSources evt freq
  · rw [if_pos (hcond.mpr hscans)]
    rw [if_pos hscans] at hscan hnew
    refine ⟨_, _, rfl, h₁.cfg_eq, rfl, ?_, h₁.start_eq.trans hstart.symm, ?_⟩
    · rw [hscan.1, ← h₁.alerted_eq]
      rfl
    · rw [scansOf_append, hnew, h₁.scans_eq, toolScans, toolScans, List.map_append]
      rfl
  · rw [if_neg fun h => hscans (hcond.mp h)]
    rw [if_neg hscans] at hscan hnew
    refine ⟨_, _, rfl, h₁.cfg_eq, rfl, ?_, h₁.start_eq.trans hstart.symm, ?_⟩
    · rw [hscan.1, ← h₁.alerted_eq]
    · rw [scansOf_append, hnew, List.append_nil]
      exact h₁.scans_eq

/-- A detector that was created, and the run of it. -/
theorem tracks_create {e : Estimator} (hmake : Portscan.makeEstimator tcfg = .ok e) :
    ∃ d₀, Portscan.PortScanDetector.create tcfg = .ok d₀ ∧ Tracks tcfg (.init e) [] d₀ := by
  refine ⟨_, by rw [Portscan.PortScanDetector.create, hmake]; rfl, ?_⟩
  exact ⟨rfl, rfl, rfl, rfl, rfl⟩

/-- **A run**: the detector raises the `port_scan` alerts of the engine. -/
theorem Reaches.tracks (hsetup : setup env cfg = some (eng, s₀))
    (hmake : Portscan.makeEstimator tcfg = .ok s₀.freqEstimator)
    (hwindow : tcfg.windowNs = windowNs cfg)
    (hthreshold : tcfg.threshold = UInt64.ofInt cfg.frequency.threshold.toInt)
    (h : Reaches env cfg events s outs) :
    ∃ d₀ d douts, Portscan.PortScanDetector.create tcfg = .ok d₀ ∧
      d₀.run (events.map toolEvent) = some (d, douts) ∧ Tracks tcfg s outs d := by
  have hcreated := created_of_setup hsetup
  obtain ⟨d₀, hnew, hinit⟩ := tracks_create hmake
  suffices hrun : ∃ d douts, d₀.run (events.map toolEvent) = some (d, douts) ∧
      Tracks tcfg s outs d by
    obtain ⟨d, douts, hd, h⟩ := hrun
    exact ⟨d₀, d, douts, hnew, hd, h⟩
  refine h.invariant (P := fun events s outs => ∃ d douts,
    d₀.run (events.map toolEvent) = some (d, douts) ∧ Tracks tcfg s outs d) hsetup ?_ ?_
  · rw [hcreated.state_eq]
    exact ⟨d₀, [], rfl, hinit⟩
  · rintro events evt s outs s' out - ⟨d, douts, hd, h⟩ hstep
    obtain ⟨d', emitted, hproc, h'⟩ := h.step (hcreated.cfg_eq ▸ hwindow)
      (hcreated.cfg_eq ▸ hthreshold) hstep
    refine ⟨d', douts ++ [⟨emitted, d'.windowId⟩], ?_, h'⟩
    rw [List.map_append, List.map_singleton, Portscan.run_append, hd, Option.bind_some,
      Portscan.PortScanDetector.runStep, hproc]
    rfl

/-! ## The casts of the configuration -/

theorem windowNs_toolConfig (h : 0 ≤ cfg.windowSeconds.toInt) :
    (toolConfig cfg).windowNs = windowNs cfg := by
  have hnat := windowNs_eq h
  show UInt64.ofNat (cfg.windowSeconds.toInt.toNat * 1000000000) = _
  rw [show cfg.windowSeconds.toInt.toNat * 1000000000 = (windowNs cfg).toNat by omega,
    UInt64.ofNat_toNat]

theorem threshold_toolConfig (h : 0 ≤ cfg.frequency.threshold.toInt) :
    (toolConfig cfg).threshold = UInt64.ofInt cfg.frequency.threshold.toInt := by
  have hlt := cfg.frequency.threshold.toInt_lt
  rw [← UInt64.toNat_inj, toNat_ofInt h (by omega)]
  exact UInt64.toNat_ofNat_of_lt' (show _ < 2 ^ 64 by omega)

theorem toNat_threshold_toolConfig (h : 0 ≤ cfg.frequency.threshold.toInt) :
    (toolConfig cfg).threshold.toNat = cfg.frequency.threshold.toInt.toNat := by
  have hlt := cfg.frequency.threshold.toInt_lt
  exact UInt64.toNat_ofNat_of_lt' (show _ < 2 ^ 64 by omega)

/-- **The engine with the sketch** raises the alerts of the detector whose sketch is
`2048 × 5`, whatever dimensions are configured. -/
theorem Reaches.scansOf_eq (hname : cfg.frequency.name = "count_min_sketch")
    (ht : 0 ≤ cfg.frequency.threshold.toInt) (hs : 0 ≤ cfg.windowSeconds.toInt)
    (h : Reaches env cfg events s outs) :
    ∃ d douts, Portscan.runAlgo (registeredConfig cfg) "cms" (events.map toolEvent)
      = some (d, douts) ∧ scansOf outs = toolScans d := by
  obtain ⟨eng, s₀, hsetup⟩ := h.exists_setup
  have hestimator := (created_of_setup hsetup).estimator_eq
  rw [hname, createEstimator, if_pos rfl] at hestimator
  have hmake : Portscan.makeEstimator (registeredConfig cfg) = .ok s₀.freqEstimator :=
    (Portscan.makeEstimator_cms (registeredConfig cfg)).trans hestimator
  obtain ⟨d₀, d, douts, hnew, hd, htracks⟩ := h.tracks hsetup hmake
    (windowNs_toolConfig hs) (threshold_toolConfig ht)
  refine ⟨d, douts, ?_, htracks.scans_eq⟩
  have hnew' : Portscan.PortScanDetector.create { registeredConfig cfg with algo := "cms" }
      = .ok d₀ := hnew
  rw [Portscan.runAlgo, hnew']
  exact hd

/-! ## Detectors of different dimensions -/

/-- Connections of the hosts, all at one time. -/
def connections (hosts : List UInt32) : List NetworkEvent := hosts.map fun x => ⟨x, 9, 80, 7, 1⟩

/-- The alerts of a crowd about its last host. -/
theorem scans_crowd (hw : 1 ≤ tcfg.cmsWidth) {ys : List UInt32} {x : UInt32}
    (hne : ∀ y ∈ ys, y ≠ x) {n : ℕ} {douts : List Portscan.PortScanDetector.Output}
    (hrun : Portscan.runAlgo tcfg "cms" ((connections (crowd n ys x)).map toolEvent)
      = some (d, douts)) :
    ((∃ a ∈ d.alerts, a.srcIp = x) ↔ tcfg.threshold.toNat
        < (Estimator.countMinSketch (.create tcfg.cmsWidth tcfg.cmsDepth)).estimateAfter
          (crowd n ys x) x) ∧
      ∀ a ∈ d.alerts, a.srcIp = x → a.freq.toNat
        = (Estimator.countMinSketch (.create tcfg.cmsWidth tcfg.cmsDepth)).estimateAfter
          (crowd n ys x) x := by
  have hevents : (connections (crowd n ys x)).map toolEvent
      = (ys.flatMap (List.replicate n)).map (fun y => ⟨y, 9, 80, 1⟩) ++ [⟨x, 9, 80, 1⟩] := by
    rw [connections, crowd, List.map_map, List.map_append]
    rfl
  obtain ⟨d', douts', hrun', hfollows, -⟩ := Portscan.follows_runAlgo
    (Portscan.makeEstimator_cms tcfg) (.countMinSketch hw tcfg.cmsDepth)
    ((connections (crowd n ys x)).map toolEvent)
  obtain ⟨rfl, -⟩ := Prod.mk.inj (Option.some.inj (hrun.symm.trans hrun'))
  rw [hevents] at hfollows
  have hsources : ((ys.flatMap (List.replicate n)).map
      fun y => (⟨y, 9, 80, 1⟩ : Portscan.NetworkEvent)).map Portscan.NetworkEvent.srcIp ++ [x]
      = crowd n ys x := by
    rw [List.map_map, crowd]
    exact congrArg (· ++ [x]) (List.map_id _)
  rw [← hsources]
  refine Portscan.alert_of_last (t := 1) (fun e he => ?_) (fun e he => ?_) hfollows
  · rcases List.mem_append.mp he with he | he
    · obtain ⟨y, -, rfl⟩ := List.mem_map.mp he
      rfl
    · rw [List.mem_singleton.mp he]
  · obtain ⟨y, hy, rfl⟩ := List.mem_map.mp he
    obtain ⟨z, hz, hy⟩ := List.mem_flatMap.mp hy
    rw [List.eq_of_mem_replicate hy]
    exact hne z hz

/-- Two detectors, of which one sees the last host of a crowd alone. -/
theorem toolScans_ne (tcfg tcfg' : Portscan.DetectorConfig) {d d' : Portscan.PortScanDetector}
    {douts douts' : List Portscan.PortScanDetector.Output} {ys : List UInt32} {x : UInt32} {n : ℕ}
    (hw : 1 ≤ tcfg.cmsWidth) (hd : 1 ≤ tcfg.cmsDepth)
    (hw' : 1 ≤ tcfg'.cmsWidth) (hd' : 1 ≤ tcfg'.cmsDepth)
    (hcrowded : Crowded tcfg.cmsWidth tcfg.cmsDepth ys x)
    (halone : Alone tcfg'.cmsWidth tcfg'.cmsDepth ys x) (hn : 1 ≤ n)
    (ht : tcfg.threshold.toNat ≤ n) (hlen : ys.length * n + 1 < 2 ^ 64)
    (hrun : Portscan.runAlgo tcfg "cms" ((connections (crowd n ys x)).map toolEvent)
      = some (d, douts))
    (hrun' : Portscan.runAlgo tcfg' "cms" ((connections (crowd n ys x)).map toolEvent)
      = some (d', douts')) : toolScans d ≠ toolScans d' := by
  intro heq
  obtain ⟨halert, hfreq⟩ := scans_crowd hw halone.ne hrun
  obtain ⟨-, hfreq'⟩ := scans_crowd hw' halone.ne hrun'
  have hover := lt_estimateAfter_crowd hw hd hcrowded hlen
  have hone := estimateAfter_crowd hw' hd' halone hlen
  obtain ⟨a, ha, hsrc⟩ := halert.mpr (lt_of_le_of_lt ht hover)
  have hmem : (ipToString a.srcIp, a.freq.toNat, a.timestampNs) ∈ toolScans d :=
    List.mem_map.mpr ⟨a, ha, rfl⟩
  rw [heq] at hmem
  obtain ⟨a', ha', hscan⟩ := List.mem_map.mp hmem
  obtain ⟨hsource, hscan⟩ := Prod.mk.inj hscan
  have hsrc' : a'.srcIp = x := (ipToString_injective hsource).trans hsrc
  have hsame := (Prod.mk.inj hscan).1
  rw [hfreq a ha hsrc, hfreq' a' ha' hsrc', hone] at hsame
  omega

/-- More connections of one host than the threshold are alerted. -/
theorem toolScans_ne_nil (tcfg : Portscan.DetectorConfig) {d : Portscan.PortScanDetector}
    {douts : List Portscan.PortScanDetector.Output} (hw : 1 ≤ tcfg.cmsWidth)
    (hd : 1 ≤ tcfg.cmsDepth) {n : ℕ} (hn : tcfg.threshold.toNat < n) (hlen : n < 2 ^ 64)
    (hrun : Portscan.runAlgo tcfg "cms" ((connections (List.replicate n 1)).map toolEvent)
      = some (d, douts)) : toolScans d ≠ [] := by
  have hevents : (connections (List.replicate n 1)).map toolEvent
      = List.replicate n ⟨1, 9, 80, 1⟩ := by
    rw [connections, List.map_replicate, List.map_replicate]
    rfl
  obtain ⟨d', douts', hrun', hfollows, -⟩ := Portscan.follows_runAlgo
    (Portscan.makeEstimator_cms tcfg) (.countMinSketch hw tcfg.cmsDepth)
    ((connections (List.replicate n 1)).map toolEvent)
  obtain ⟨rfl, -⟩ := Prod.mk.inj (Option.some.inj (hrun.symm.trans hrun'))
  rw [hevents] at hfollows
  have htimes : ∀ e ∈ List.replicate n (⟨1, 9, 80, 1⟩ : Portscan.NetworkEvent), e.timestampNs = 1 :=
    fun e he => by rw [List.eq_of_mem_replicate he]
  have hlog : (Portscan.windowsOf { tcfg with algo := "cms" } (List.replicate n ⟨1, 9, 80, 1⟩)).log
      = List.replicate n (0, ⟨1, 9, 80, 1⟩) :=
    (log_of_time_eq htimes).trans List.map_replicate
  -- the sketch never counts too little
  obtain ⟨a, ha, -⟩ := hfollows.exists_alert (k := n + 1) (by rwa [List.length_replicate])
    (fun l x hl => by
      have hle := (Estimator.estimateAfter_countMinSketch hw hd hl x).1
      rw [Nat.sub_eq_zero_of_le hle, Nat.mul_zero]
      exact Nat.zero_le _) 0 1 (by
      rw [hlog, List.countP_replicate, List.countP_replicate, if_pos (by decide), if_pos (by decide)]
      have hpos := Nat.le_mul_of_pos_right (n + 1) (Nat.sub_pos_of_lt hn)
      exact lt_of_lt_of_le (Nat.lt_succ_self n) hpos)
  exact List.ne_nil_of_mem (List.mem_map_of_mem ha)

/-! ## Which engines agree with the detector -/

/-- The names that `main` looks up besides the estimator are registered. -/
def Registered (cfg : PipelineConfig) : Prop :=
  (cfg.scc.name = "tarjan" ∨ cfg.scc.name = "kosaraju") ∧
    (cfg.reachability.name = "bfs" ∨ cfg.reachability.name = "dijkstra") ∧
    cfg.ipClassifier.name = "lpm_trie"

/-- No `int` of the engine has to count more vertices than it can hold. -/
def Sized (env : Env) (cfg : PipelineConfig) (events : List NetworkEvent) : Prop :=
  ∀ eng s₀, setup env cfg = some (eng, s₀) → eng.CountsVertices →
    (graphOf events).numVertices < 2 ^ 31

theorem exists_setup_iff (env : Env) (hname : cfg.frequency.name = "count_min_sketch") :
    (∃ eng s₀, setup env cfg = some (eng, s₀)) ↔ Registered cfg := by
  have he : ∃ e, createEstimator cfg.frequency.name = .ok e := ⟨_, by rw [hname]; rfl⟩
  exact exists_setup_iff_names.trans (and_iff_right he)

/-- The graph of a crowd is small, however often its hosts connect. -/
theorem numVertices_crowd (n : ℕ) (ys : List UInt32) (x : UInt32) :
    (graphOf (connections (crowd n ys x))).numVertices ≤ ys.length + 2 := by
  have hsub : (graphOf (connections (crowd n ys x))).vertices
      ⊆ insert 9 (insert x ys.toFinset) := by
    intro v hv
    rw [vertices_graphOf, mem_addresses] at hv
    obtain ⟨evt, hevt, hv⟩ := hv
    obtain ⟨y, hy, rfl⟩ := List.mem_map.mp hevt
    rcases hv with rfl | rfl
    · rcases List.mem_append.mp hy with hy | hy
      · obtain ⟨z, hz, hy⟩ := List.mem_flatMap.mp hy
        obtain rfl := List.eq_of_mem_replicate hy
        exact Finset.mem_insert_of_mem (Finset.mem_insert_of_mem (List.mem_toFinset.mpr hz))
      · obtain rfl := List.mem_singleton.mp hy
        exact Finset.mem_insert_of_mem (Finset.mem_insert_self _ _)
    · exact Finset.mem_insert_self _ _
  have h1 := Finset.card_le_card hsub
  have h2 := Finset.card_insert_le 9 (insert x ys.toFinset)
  have h3 := Finset.card_insert_le x ys.toFinset
  have h4 := List.toFinset_card_le ys
  rw [DirectedGraph.numVertices]
  omega

theorem one_le_toUInt32 {x : Int32} (h : 1 ≤ x.toInt) : 1 ≤ x.toUInt32 := by
  rw [UInt32.le_iff_toNat_le]
  by_contra hzero
  have hx : x.toUInt32 = 0 := UInt32.toNat.inj (Nat.lt_one_iff.mp (not_le.mp hzero))
  obtain rfl : x = 0 := congrArg Int32.ofUInt32 hx
  exact absurd h (by decide)

/-- With other dimensions, some crowd is counted differently. -/
theorem exists_not_agrees {F : Type} [DecidableEq F] {w : ConfigLoader.World F}
    {sinks : Soc.Sinks F} {env : Env} {c : ConfigLoader.PipelineConfig}
    (hstart : ∃ r, ConfigLoader.start w env c cfg sinks = some r)
    (hname : cfg.frequency.name = "count_min_sketch")
    (hw : 1 ≤ cfg.frequency.width.toInt) (hd : 1 ≤ cfg.frequency.depth.toInt)
    (ht : 0 ≤ cfg.frequency.threshold.toInt) (hs : 0 ≤ cfg.windowSeconds.toInt)
    (hne : ¬ (cfg.frequency.width = 2048 ∧ cfg.frequency.depth = 5)) :
    ∃ events, Sized env cfg events ∧ ¬ Agrees w sinks env c cfg events := by
  have hne' : ¬ (cfg.frequency.width.toUInt32 = 2048 ∧ cfg.frequency.depth.toUInt32 = 5) :=
    fun ⟨hwidth, hdepth⟩ => hne ⟨congrArg Int32.ofUInt32 hwidth, congrArg Int32.ofUInt32 hdepth⟩
  obtain ⟨ys, hlen, hdiffer⟩ := exists_crowd (one_le_toUInt32 hw) (one_le_toUInt32 hd) hne'
  -- enough connections of each host for the overestimate to pass the threshold
  have hlt := cfg.frequency.threshold.toInt_lt
  have hthreshold := toNat_threshold_toolConfig ht
  obtain ⟨n, hn⟩ : ∃ n, n = cfg.frequency.threshold.toInt.toNat + 1 := ⟨_, rfl⟩
  have hbound : ys.length * n + 1 < 2 ^ 64 := by
    have := Nat.mul_le_mul_right n hlen
    omega
  refine ⟨connections (crowd n ys 1), fun _ _ _ _ =>
    lt_of_le_of_lt (numVertices_crowd n ys 1) (by omega), ?_⟩
  rintro ⟨d', douts', hrun', hemits⟩
  obtain ⟨s, outs, hrun, hscans'⟩ := hemits.loop hstart
  obtain ⟨d, douts, hrun, hscans⟩ := hrun.scansOf_eq hname ht hs
  have heq : toolScans d = toolScans d' := hscans.symm.trans hscans'
  have hone : (1 : UInt32) ≤ 2048 ∧ (1 : UInt32) ≤ 5 := by decide
  rcases hdiffer with ⟨hcrowded, halone⟩ | ⟨hcrowded, halone⟩
  · exact toolScans_ne (registeredConfig cfg) (toolConfig cfg) hone.1 hone.2
      (one_le_toUInt32 hw) (one_le_toUInt32 hd) hcrowded halone (by omega)
      (show (toolConfig cfg).threshold.toNat ≤ n by omega) hbound hrun hrun' heq
  · exact toolScans_ne (toolConfig cfg) (registeredConfig cfg) (one_le_toUInt32 hw)
      (one_le_toUInt32 hd) hone.1 hone.2 hcrowded halone (by omega) (by omega) hbound hrun' hrun
      heq.symm

/-- Where the engine does not start, a scan is alerted by the detector only. -/
theorem exists_not_agrees_of_ended {F : Type} [DecidableEq F] {w : ConfigLoader.World F}
    {sinks : Soc.Sinks F} {env : Env} {c : ConfigLoader.PipelineConfig}
    (hended : ¬ ∃ r, ConfigLoader.start w env c cfg sinks = some r)
    (hw : 1 ≤ cfg.frequency.width.toInt) (hd : 1 ≤ cfg.frequency.depth.toInt)
    (ht : 0 ≤ cfg.frequency.threshold.toInt) :
    ∃ events, Sized env cfg events ∧ ¬ Agrees w sinks env c cfg events := by
  have hlt := cfg.frequency.threshold.toInt_lt
  have hthreshold := toNat_threshold_toolConfig ht
  obtain ⟨n, hn⟩ : ∃ n, n = cfg.frequency.threshold.toInt.toNat := ⟨_, rfl⟩
  have hcrowd : crowd n [1] 1 = List.replicate (n + 1) 1 := by
    rw [crowd, List.flatMap_singleton, List.replicate_succ']
  refine ⟨connections (List.replicate (n + 1) 1), fun _ _ _ _ => ?_, ?_⟩
  · rw [← hcrowd]
    exact lt_of_le_of_lt (numVertices_crowd n [1] 1) (by decide)
  · rintro ⟨d, douts, hrun, hemits⟩
    exact toolScans_ne_nil (toolConfig cfg) (one_le_toUInt32 hw) (one_le_toUInt32 hd)
      (by omega) (by omega) hrun (hemits.ended hended)

/-- With the registered dimensions, the sketches are the same. -/
theorem agrees_of_registered {F : Type} [DecidableEq F] {w : ConfigLoader.World F}
    {sinks : Soc.Sinks F} {env : Env} {c : ConfigLoader.PipelineConfig}
    (hstart : ∃ r, ConfigLoader.start w env c cfg sinks = some r)
    (hname : cfg.frequency.name = "count_min_sketch")
    (ht : 0 ≤ cfg.frequency.threshold.toInt) (hs : 0 ≤ cfg.windowSeconds.toInt)
    (hlo : 1 ≤ cfg.sccIntervalSeconds.toInt) (hhi : cfg.sccIntervalSeconds.toInt ≤ 100000000)
    (hdimensions : cfg.frequency.width = 2048 ∧ cfg.frequency.depth = 5)
    {events : List NetworkEvent} (hsized : Sized env cfg events) :
    Agrees w sinks env c cfg events := by
  obtain ⟨eng, s₀, hsetup⟩ := (ConfigLoader.exists_start_iff.mp hstart).1
  obtain ⟨m, hm, -⟩ := sccPeriod_eq hlo hhi
  obtain ⟨s, outs, hrun⟩ := exists_reaches_of_size hsetup ⟨m, hm⟩ events (hsized eng s₀ hsetup)
  obtain ⟨d, douts, hd, hscans⟩ := hrun.scansOf_eq hname ht hs
  have hsame : registeredConfig cfg = toolConfig cfg := by
    rw [registeredConfig, toolConfig, hdimensions.1, hdimensions.2]
    rfl
  exact ⟨d, douts, hsame ▸ hd, fun _ => ⟨s, outs, hrun, hscans⟩, fun h => absurd hstart h⟩

/-- **The engine emits the alerts of the detector on every stream** exactly when it starts and
the configured dimensions of the sketch are the registered ones. -/
theorem agrees_iff {F : Type} [DecidableEq F] (w : ConfigLoader.World F) (sinks : Soc.Sinks F)
    (env : Env) (c : ConfigLoader.PipelineConfig) (hcfg : ConfigLoader.Configures c cfg)
    (hname : cfg.frequency.name = "count_min_sketch")
    (hw : 1 ≤ cfg.frequency.width.toInt) (hd : 1 ≤ cfg.frequency.depth.toInt)
    (ht : 0 ≤ cfg.frequency.threshold.toInt) (hs : 0 ≤ cfg.windowSeconds.toInt)
    (hlo : 1 ≤ cfg.sccIntervalSeconds.toInt) (hhi : cfg.sccIntervalSeconds.toInt ≤ 100000000) :
    (∀ events, Sized env cfg events → Agrees w sinks env c cfg events) ↔
      Registered cfg ∧ ConfigLoader.Startable w c ∧ c.frequency.width = 2048 ∧
        c.frequency.depth = 5 := by
  have hdimensions : c.frequency.width = cfg.frequency.width ∧
      c.frequency.depth = cfg.frequency.depth := by
    rw [hcfg.frequency_eq]
    exact ⟨rfl, rfl⟩
  rw [hdimensions.1, hdimensions.2]
  by_cases hstart : ∃ r, ConfigLoader.start w env c cfg sinks = some r
  · obtain ⟨hsetup, hstartable⟩ := ConfigLoader.exists_start_iff.mp hstart
    rw [and_iff_right ((exists_setup_iff env hname).mp hsetup), and_iff_right hstartable]
    refine ⟨fun hagrees => ?_, fun hdim events hsized =>
      agrees_of_registered hstart hname ht hs hlo hhi hdim hsized⟩
    by_contra hne
    obtain ⟨events, hsized, hnot⟩ := exists_not_agrees hstart hname hw hd ht hs hne
    exact hnot (hagrees events hsized)
  · refine iff_of_false (fun hagrees => ?_) fun ⟨hregistered, hstartable, _⟩ => hstart
      (ConfigLoader.exists_start_iff.mpr ⟨(exists_setup_iff env hname).mpr hregistered, hstartable⟩)
    obtain ⟨events, hsized, hnot⟩ := exists_not_agrees_of_ended hstart hw hd ht
    exact hnot (hagrees events hsized)

/-- The default dimensions are the registered ones. -/
def plainFile : ConfigLoader.PipelineConfig where
  frequency := { name := Soc.bytes "count_min_sketch" }
  scc := { name := Soc.bytes "tarjan" }
  reachability := { name := Soc.bytes "bfs" }
  ipClassifier := { name := Soc.bytes "lpm_trie" }

/-- The engine with the default settings, where all files can be opened. -/
theorem agrees_iff_plain :
    ∃ env, ∀ events, Sized env (.plain "count_min_sketch" "tarjan") events →
      Agrees (F := Unit) ⟨fun _ => true, fun _ => some (), fun _ => true⟩
        ⟨fun _ => [], [], [], []⟩ env plainFile (.plain "count_min_sketch" "tarjan") events := by
  obtain ⟨env⟩ := (inferInstance : Nonempty Env)
  have hcfg : ConfigLoader.Configures plainFile (.plain "count_min_sketch" "tarjan") :=
    ⟨by decide, by decide, by decide, by decide, rfl, rfl, rfl, rfl, rfl, rfl⟩
  exact ⟨env, (agrees_iff (F := Unit) _ _ env plainFile hcfg rfl (by decide) (by decide)
    (by decide) (by decide) (by decide) (by decide)).mpr ⟨⟨Or.inl rfl, Or.inl rfl, rfl⟩,
      ConfigLoader.startable_of_opens (fun _ => rfl) (fun _ => rfl) rfl, rfl, rfl⟩⟩

/-- A sketch of 4096 columns, and the threshold 1. -/
def wider : PipelineConfig :=
  { PipelineConfig.plain "count_min_sketch" "kosaraju" with
    frequency := { name := "count_min_sketch", width := 4096, threshold := 1 } }

/-- The loaded configuration of `wider`. -/
def widerFile : ConfigLoader.PipelineConfig :=
  { plainFile with
    frequency := { name := Soc.bytes "count_min_sketch", width := 4096, threshold := 1 }
    scc := { name := Soc.bytes "kosaraju" } }

/-- Six hosts connect once each.  The first five share a column with the last in one row
each of the registered sketch, so the engine alerts the last host; in the first row of
the configured one they do not. -/
theorem not_agrees_wider :
    ConfigLoader.Configures widerFile wider ∧
      ∃ env, (∃ s outs, Reaches env wider (connections [1472, 4238, 761, 2446, 285, 1]) s outs) ∧
        ¬ Agrees (F := Unit) ⟨fun _ => true, fun _ => some (), fun _ => true⟩
          ⟨fun _ => [], [], [], []⟩ env widerFile wider
          (connections [1472, 4238, 761, 2446, 285, 1]) := by
  refine ⟨⟨by decide, by decide, by decide, by decide, rfl, rfl, rfl, rfl, rfl, rfl⟩, ?_⟩
  obtain ⟨env⟩ := (inferInstance : Nonempty Env)
  obtain ⟨eng, s₀, hsetup⟩ := exists_setup wider rfl rfl rfl rfl env
  refine ⟨env, exists_reaches_of_size hsetup ⟨100, by decide⟩ _ fun h =>
    absurd h ((created_of_setup hsetup).not_countsVertices rfl rfl), ?_⟩
  rintro ⟨d', douts', hrun', hemits⟩
  obtain ⟨s, outs, hrun, hscans'⟩ := hemits.loop (ConfigLoader.exists_start_iff.mpr
    ⟨⟨eng, s₀, hsetup⟩, ConfigLoader.startable_of_opens (fun _ => rfl) (fun _ => rfl) rfl⟩)
  obtain ⟨d, douts, hrun, hscans⟩ := hrun.scansOf_eq rfl (by decide) (by decide)
  have hcrowded : Crowded 2048 5 [1472, 4238, 761, 2446, 285] 1 := by decide +kernel
  have halone : Alone 4096 5 [1472, 4238, 761, 2446, 285] 1 := ⟨0, by decide, by decide +kernel⟩
  exact toolScans_ne (n := 1) (registeredConfig wider) (toolConfig wider) (by decide)
    (by decide) (by decide) (by decide) hcrowded halone le_rfl (by decide) (by decide)
    hrun hrun' (hscans.symm.trans hscans')

end Engine
