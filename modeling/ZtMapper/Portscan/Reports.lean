/-
# The engine and the tool on one input

Both programs get the same file.  Where its lines denote events with their times, or no
events for either parser, the detectors see the same flows, and the tool's file of alerts
tells the `port_scan` alerts of the engine (`tool_reports_scans`).
-/
import ZtMapper.Portscan.Main

open Frequency Loop Pipeline Scan WindowLog
open Portscan (CliArgs DetectorConfig PortScanDetector alertValue detect detectors inputLines makeCfg
  makeEstimator writeAlertsJson)

namespace Engine

variable {a : CliArgs} {env : Env} {cfg : PipelineConfig} {s : State} {outs : List Output}

/-- The line denotes an event with its time, or it is no event for either program. -/
def ReadAlike (line : List UInt8) : Prop :=
  (∃ evt, Reads line evt ∧ HasText line "timestamp_ns") ∨
    (parseEvent line = .ok none ∧ Portscan.search line = none)

/-- The parsers agree on the line, whenever the tool reads it. -/
theorem ReadAlike.parse {line : List UInt8} (h : ReadAlike line) (now : UInt64) :
    ∃ r, parseEvent line = .ok r ∧ Portscan.parseEvent now line = .ok (r.map toolEvent) := by
  rcases h with ⟨evt, hreads, htime⟩ | ⟨hnone, hsearch⟩
  · refine ⟨some evt, parseEvent_of_reads hreads, ?_⟩
    rw [Portscan.parseEvent_of_reads hreads, Portscan.timed, Portscan.jsonField,
      if_neg (hasText_iff.mp htime)]
    rfl
  · refine ⟨none, hnone, ?_⟩
    rw [Portscan.parseEvent_of_none hnone, Portscan.parseTcpdump, hsearch]
    rfl

/-- A line of the collector is read alike. -/
theorem readAlike_handleEvent (e : Endian) (evt : NetworkEventT) :
    ∃ line, handleEvent e evt = line ++ [10] ∧ 10 ∉ line ∧ ReadAlike line := by
  obtain ⟨a, b, c, d, hsrc, -⟩ := exists_memory e evt.srcIp
  obtain ⟨a', b', c', d', hdst, -⟩ := exists_memory e evt.dstIp
  have hsep : ∀ b ∈ ([] : List UInt8), b = 32 := fun b hb => absurd hb List.not_mem_nil
  refine ⟨_, handleEvent_eq e evt, ?_⟩
  rw [ipToStr, ipToStr, hsrc, hdst]
  exact ⟨(parseEvent_objectLine hsep a b c d a' b' c' d' evt.dstPort evt.pid evt.timestampNs).1,
    Or.inl ⟨_, reads_objectLine hsep a b c d a' b' c' d' evt.dstPort evt.pid evt.timestampNs⟩⟩

/-- Lines on which the parsers agree have the same events. -/
theorem exists_parseLines {lines : List (UInt64 × List UInt8)}
    (h : ∀ l ∈ lines, ∃ r, parseEvent l.2 = .ok r ∧
      Portscan.parseEvent l.1 l.2 = .ok (r.map toolEvent)) :
    ∃ events, parseLines (lines.map (·.2)) = some events ∧
      Portscan.parseLines lines = some (events.map toolEvent) := by
  induction lines with
  | nil => exact ⟨[], rfl, rfl⟩
  | cons l lines ih =>
    rw [List.forall_mem_cons] at h
    obtain ⟨⟨r, hparse, htool⟩, htail⟩ := h
    obtain ⟨events, hevents, htools⟩ := ih htail
    rw [List.map_cons, parseLines, Portscan.parseLines, hparse, htool]
    cases r with
    | none => exact ⟨events, hevents, htools⟩
    | some evt =>
      refine ⟨evt :: events, ?_, ?_⟩
      · dsimp only
        rw [hevents]
        rfl
      · show (Portscan.parseLines lines).map (toolEvent evt :: ·) = _
        rw [htools]
        rfl

/-- An empty line is no event. -/
theorem parseLines_filter (lines : List (List UInt8)) :
    parseLines (lines.filter (· ≠ [])) = parseLines lines := by
  induction lines with
  | nil => rfl
  | cons line lines ih =>
    cases line with
    | nil => exact ih
    | cons b line =>
      rw [List.filter_cons_of_pos (by simp), parseLines, parseLines, ih]

/-- The options ask the tool for the estimator that the engine gets by name. -/
inductive SameEstimator (a : CliArgs) (name : String) : Prop
  | cms : name = "count_min_sketch" → a.algo = bytes "cms" → a.cmsWidth = 2048 → a.cmsDepth = 5 →
      SameEstimator a name
  | mg : name = "heavy_hitters" → a.algo = bytes "mg" → a.mgK = 64 → SameEstimator a name
  | hashmap : name = "hash_map_exact" → a.algo = bytes "hashmap" → SameEstimator a name

/-- The options ask the tool for the detector of the engine. -/
structure SameDetector (a : CliArgs) (cfg : PipelineConfig) : Prop where
  estimator : SameEstimator a cfg.frequency.name
  threshold : a.threshold = UInt64.ofInt cfg.frequency.threshold.toInt
  windowS : a.windowS = UInt64.ofInt cfg.windowSeconds.toInt

theorem SameEstimator.makeEstimator_eq {name : String} (h : SameEstimator a name) :
    makeEstimator (makeCfg a a.algo) = createEstimator name := by
  rcases h with ⟨rfl, halgo, hwidth, hdepth⟩ | ⟨rfl, halgo, hk⟩ | ⟨rfl, halgo⟩
  · have hname : (makeCfg a a.algo).algo = "cms" := by
      rw [halgo]
      show text (bytes "cms") = "cms"
      decide
    rw [makeEstimator, if_pos hname]
    show Except.ok (Estimator.countMinSketch (.create a.cmsWidth a.cmsDepth)) = _
    rw [hwidth, hdepth]
    rfl
  · have hname : (makeCfg a a.algo).algo = "mg" := by
      rw [halgo]
      show text (bytes "mg") = "mg"
      decide
    rw [makeEstimator, if_neg (by rw [hname]; decide), if_pos hname]
    show (HeavyHitters.create a.mgK).map Estimator.heavyHitters = _
    rw [hk]
    rfl
  · have hname : (makeCfg a a.algo).algo = "hashmap" := by
      rw [halgo]
      show text (bytes "hashmap") = "hashmap"
      decide
    rw [makeEstimator, if_neg (by rw [hname]; decide), if_neg (by rw [hname]; decide), if_pos hname]
    rfl

/-- One algorithm, whose name is written as it is. -/
theorem SameEstimator.algos_eq {name : String} (h : SameEstimator a name) :
    Portscan.algos a = [a.algo] ∧ (makeCfg a a.algo).algo.toList.all Json.isPlain = true := by
  show _ ∧ (text a.algo).toList.all Json.isPlain = true
  rcases h with ⟨-, halgo, -, -⟩ | ⟨-, halgo, -⟩ | ⟨-, halgo⟩ <;> rw [Portscan.algos, halgo] <;>
    exact ⟨if_neg (by decide), by decide⟩

/-- The tool on the events of the engine. -/
theorem Reaches.exists_detector (hoptions : SameDetector a cfg) {events : List NetworkEvent}
    (h : Reaches env cfg events s outs) :
    ∃ d₀ d douts, PortScanDetector.create (makeCfg a a.algo) = .ok d₀ ∧
      d₀.run (events.map toolEvent) = some (d, douts) ∧ scansOf outs = toolScans d ∧
      ∀ alert ∈ d.alerts, alert.algo = (makeCfg a a.algo).algo := by
  obtain ⟨eng, s₀, hsetup⟩ := h.exists_setup
  have hestimator := (created_of_setup hsetup).estimator_eq
  have hmake : makeEstimator (makeCfg a a.algo) = .ok s₀.freqEstimator :=
    hoptions.estimator.makeEstimator_eq.trans hestimator
  have hwindow : (makeCfg a a.algo).windowNs = windowNs cfg := by
    show a.windowS * 1000000000 = _
    rw [hoptions.windowS, windowNs, UInt64.mul_comm]
  obtain ⟨d₀, d, douts, hnew, hrun, htracks⟩ := h.tracks hsetup hmake hwindow hoptions.threshold
  refine ⟨d₀, d, douts, hnew, hrun, htracks.scans_eq, fun alert halert => ?_⟩
  have hfresh : d₀.estimator.Fresh := by
    have hcreate := hnew
    rw [PortScanDetector.create, hmake] at hcreate
    rw [← Except.ok.inj hcreate]
    exact fresh_of_createEstimator hestimator
  obtain ⟨d', outs', hrun', hfollows, -⟩ := Portscan.follows_run hnew hfresh (events.map toolEvent)
  obtain ⟨rfl, -⟩ := Prod.mk.inj (Option.some.inj (hrun.symm.trans hrun'))
  exact Portscan.algo_of_mem hfollows halert

/-- **The engine and the tool on one file**: when every line is read alike, the tool ends as
well, and its file of alerts is the array of one object for each `port_scan` alert of the
engine, with the same source, frequency and time. -/
theorem tool_reports_scans (hoptions : SameDetector a cfg) {input : List UInt8}
    (hlines : ∀ line ∈ pieces 10 input, ReadAlike line)
    (hrun : Returns (runLines env cfg (pieces 10 input)) (s, outs)) (clock : ℕ → ℕ → UInt64) :
    ∃ d, detectors a clock input = some [d] ∧ toolScans d = scansOf outs ∧
      Json.decode (writeAlertsJson [d]).toList = some (.arr (d.alerts.map alertValue)) := by
  obtain ⟨events, hevents, hreach⟩ := reaches_lines_iff.mp hrun
  -- the tool drops the empty lines, and gives each one the time at which it is read
  let timed : List (UInt64 × List UInt8) :=
    (inputLines input).zipIdx.map fun l => (clock 0 l.2, l.1)
  have htimed : timed.map (·.2) = inputLines input := by
    rw [List.map_map]
    exact List.zipIdx_map_fst 0 _
  have halike : ∀ l ∈ timed, ∃ r, parseEvent l.2 = .ok r ∧
      Portscan.parseEvent l.1 l.2 = .ok (r.map toolEvent) := by
    intro l hl
    have hmem : l.2 ∈ inputLines input := htimed ▸ List.mem_map_of_mem hl
    exact (hlines l.2 (List.mem_filter.mp hmem).1).parse l.1
  obtain ⟨events', hparse, htool⟩ := exists_parseLines halike
  rw [htimed, inputLines, parseLines_filter, hevents] at hparse
  obtain rfl := Option.some.inj hparse
  obtain ⟨d₀, d, douts, hnew, hd, hscans, halgo⟩ := hreach.exists_detector hoptions
  obtain ⟨hsingle, hplain⟩ := hoptions.estimator.algos_eq
  refine ⟨d, ?_, hscans.symm, ?_⟩
  · have hdetect : detect (makeCfg a a.algo) timed = some d := by
      rw [Portscan.detect_eq_some hnew htool, hd]
      rfl
    rw [detectors, hsingle]
    show (detect (makeCfg a a.algo) timed >>= fun d => pure [d]) = _
    rw [hdetect]
    rfl
  · have hdecode := Portscan.decode_writeAlertsJson fun d' hd' alert halert => by
      rw [List.mem_singleton.mp hd'] at halert
      rw [halgo alert halert]
      exact hplain
    rwa [List.flatMap_singleton] at hdecode

/-- One connection, and a threshold that it is over. -/
theorem tool_reports_scans_one :
    ∃ env s outs d,
      Returns (runLines env (alertingConfig "count_min_sketch" "kosaraju" 0)
        (pieces 10 (handleEvent .little ⟨0x0501F40A, 0x0A02F40A, 80, 7, 123⟩))) (s, outs) ∧
      detectors { algo := bytes "cms", threshold := 0 } (fun _ _ => 5)
        (handleEvent .little ⟨0x0501F40A, 0x0A02F40A, 80, 7, 123⟩) = some [d] ∧
      toolScans d = scansOf outs ∧
      Json.decode (writeAlertsJson [d]).toList = some (.arr (d.alerts.map alertValue)) := by
  obtain ⟨env⟩ := (inferInstance : Nonempty Env)
  obtain ⟨eng, s₀, hsetup⟩ :=
    exists_setup (alertingConfig "count_min_sketch" "kosaraju" 0) rfl rfl rfl rfl env
  obtain ⟨line, hprint, hline, halike⟩ := readAlike_handleEvent .little
    ⟨0x0501F40A, 0x0A02F40A, 80, 7, 123⟩
  have hpieces : pieces 10 (handleEvent .little ⟨0x0501F40A, 0x0A02F40A, 80, 7, 123⟩) = [line] := by
    rw [hprint, pieces_append_cons hline]
    rfl
  have hlines : ∀ l ∈ pieces 10 (handleEvent .little ⟨0x0501F40A, 0x0A02F40A, 80, 7, 123⟩),
      ReadAlike l := by
    rw [hpieces]
    exact fun l hl => List.mem_singleton.mp hl ▸ halike
  obtain ⟨r, hparse, -⟩ := halike.parse 5
  obtain ⟨events, hevents⟩ : ∃ events, parseLines [line] = some events := by
    rw [parseLines, hparse]
    cases r with
    | none => exact ⟨[], rfl⟩
    | some evt => exact ⟨[evt], rfl⟩
  obtain ⟨s, outs, hrun⟩ := exists_reaches_of_size hsetup ⟨10, rfl⟩ events fun h =>
    absurd h ((created_of_setup hsetup).not_countsVertices rfl rfl)
  have hreturns : Returns (runLines env (alertingConfig "count_min_sketch" "kosaraju" 0) _) (s, outs) :=
    reaches_lines_iff.mpr ⟨events, (congrArg parseLines hpieces).trans hevents, hrun⟩
  obtain ⟨d, hd⟩ := tool_reports_scans (a := { algo := bytes "cms", threshold := 0 })
    ⟨.cms rfl rfl rfl rfl, by decide, by decide⟩ hlines hreturns fun _ _ => 5
  exact ⟨env, s, outs, d, hreturns, hd⟩

/-! ## Captures -/

/-- A line of a capture in ASCII, where a text and its bytes are the same: it shows a flow, or the
script does not see one. -/
structure Captured (line : List UInt8) : Prop where
  ascii : ∀ b ∈ line, b < 128
  noBreaks : 10 ∉ line ∧ 13 ∉ line
  noSeparators : Portscan.NoSeparators line
  text : line.head? ≠ some 123
  flow : search line = none ∨ ∃ e evt, Shows e evt line

/-- What the script writes for the lines, each at its time. -/
def converted (pid : UInt32) (capture : List (UInt64 × List UInt8)) : List UInt8 :=
  capture.flatMap fun l => convert pid.toNat l.1.toNat l.2

/-- **A line of a capture**, read by the tool and by the engine after the script. -/
theorem Captured.parse {line : List UInt8} (h : Captured line) (pid : UInt32) (now : UInt64) :
    (convert pid.toNat now.toNat line = [] ∧ Portscan.parseEvent now line = .ok none) ∨
      ∃ line' evt, convert pid.toNat now.toNat line = line' ++ [10] ∧ 10 ∉ line' ∧
        parseEvent line' = .ok (some evt) ∧
        Portscan.parseEvent now line = .ok (some (toolEvent evt)) := by
  rcases h.flow with hnone | ⟨e, evt, hshows⟩
  · refine Or.inl ⟨by rw [convert, hnone], ?_⟩
    have hreject : parseEvent line = .ok none := parseEvent_eq_none_iff.mpr fun hobject =>
      h.text hobject.1
    rw [Portscan.parseEvent_of_none hreject, Portscan.parseTcpdump,
      Portscan.search_eq h.noSeparators, hnone]
  · have hshows' : Shows e { evt with pid := pid, timestampNs := now } line := hshows
    obtain ⟨line', hconvert, hline', hparse⟩ := parseEvent_convert e _ hshows'
    exact Or.inr ⟨line', _, hconvert, hline', hparse,
      Portscan.parseEvent_of_shows hshows h.noSeparators h.text now⟩

/-- The events of a capture are those of the script's lines. -/
theorem exists_parseLines_converted {capture : List (UInt64 × List UInt8)}
    (h : ∀ l ∈ capture, Captured l.2) (pid : UInt32) :
    ∃ events, parseLines (pieces 10 (converted pid capture)) = some events ∧
      Portscan.parseLines capture = some (events.map toolEvent) := by
  induction capture with
  | nil => exact ⟨[], rfl, rfl⟩
  | cons l capture ih =>
    rw [List.forall_mem_cons] at h
    obtain ⟨events, hevents, htool⟩ := ih h.2
    rw [converted, List.flatMap_cons, Portscan.parseLines]
    rcases h.1.parse pid l.1 with ⟨hconvert, hparse⟩ | ⟨line, evt, hconvert, hline, hparse, hparse'⟩
    · rw [hconvert, hparse]
      exact ⟨events, hevents, htool⟩
    · refine ⟨evt :: events, ?_, ?_⟩
      · rw [hconvert, List.append_assoc, List.singleton_append, pieces_append_cons hline, parseLines,
          hparse]
        dsimp only
        rw [← converted, hevents]
        rfl
      · rw [hparse']
        dsimp only
        rw [htool]
        rfl

/-- **The engine and the tool on one capture**: what the tool reports of the lines of
`tcpdump` is what the engine reports of the lines that the script makes of them. -/
theorem tool_reports_capture (hoptions : SameDetector a cfg)
    {capture : List (UInt64 × List UInt8)} (hcapture : ∀ l ∈ capture, Captured l.2) (pid : UInt32)
    (hrun : Returns (runLines env cfg (pieces 10 (converted pid capture))) (s, outs)) :
    ∃ d, detect (makeCfg a a.algo) capture = some d ∧ toolScans d = scansOf outs := by
  obtain ⟨events, hevents, hreach⟩ := reaches_lines_iff.mp hrun
  obtain ⟨events', hparse, htool⟩ := exists_parseLines_converted hcapture pid
  obtain rfl := Option.some.inj (hevents.symm.trans hparse)
  obtain ⟨d₀, d, douts, hnew, hd, hscans, -⟩ := hreach.exists_detector hoptions
  refine ⟨d, ?_, hscans.symm⟩
  rw [Portscan.detect_eq_some hnew htool, hd]
  rfl

/-- A capture of one line. -/
def synCapture : List (UInt64 × List UInt8) :=
  [(123, bytes "21:30:42.1 eth0 Out IP 10.244.1.5.3452 > 10.244.2.10.80: Flags [S], seq 1")]

theorem tool_reports_capture_syn :
    ∃ env s outs d,
      Returns (runLines env (alertingConfig "count_min_sketch" "kosaraju" 0)
        (pieces 10 (converted 7 synCapture))) (s, outs) ∧
      detect (makeCfg { algo := bytes "cms", threshold := 0 } (bytes "cms")) synCapture = some d ∧
      toolScans d = scansOf outs := by
  obtain ⟨env⟩ := (inferInstance : Nonempty Env)
  obtain ⟨eng, s₀, hsetup⟩ :=
    exists_setup (alertingConfig "count_min_sketch" "kosaraju" 0) rfl rfl rfl rfl env
  have hcapture : ∀ l ∈ synCapture, Captured l.2 := by
    intro l hl
    rw [List.mem_singleton.mp hl]
    exact ⟨by decide +kernel, by decide, by decide, by decide,
      Or.inr ⟨.little, ⟨0x0501F40A, 0x0A02F40A, 80, 7, 123⟩, by decide⟩⟩
  obtain ⟨events, hevents, -⟩ := exists_parseLines_converted hcapture 7
  obtain ⟨s, outs, hrun⟩ := exists_reaches_of_size hsetup ⟨10, rfl⟩ events fun h =>
    absurd h ((created_of_setup hsetup).not_countsVertices rfl rfl)
  have hreturns : Returns (runLines env (alertingConfig "count_min_sketch" "kosaraju" 0) _) (s, outs) :=
    reaches_lines_iff.mpr ⟨events, hevents, hrun⟩
  obtain ⟨d, hd⟩ := tool_reports_capture (a := { algo := bytes "cms", threshold := 0 })
    ⟨.cms rfl rfl rfl rfl, by decide, by decide⟩ hcapture 7 hreturns
  exact ⟨env, s, outs, d, hreturns, hd⟩

end Engine
