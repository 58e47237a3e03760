/-
# Three detectors on the same events

The detectors with the algorithms `mg`, `hashmap` and `cms` keep the same
windows.  Where no 64-bit counter overflows, their estimates are ordered, and so
are their alerts (`alerts_ordered`); past `2^64` events the sketch can forget a
source the exact counter alerts (`not_noLater_collision`).
-/
import ZtMapper.Portscan.DetectorCorrect

open Frequency Tumbling WindowLog

namespace Portscan

/-- A new detector with the given algorithm, run on the events. -/
def runAlgo (cfg : DetectorConfig) (algo : String) (events : List NetworkEvent) :
    Option (PortScanDetector × List PortScanDetector.Output) :=
  match PortScanDetector.create { cfg with algo := algo } with
  | .ok d => d.run events
  | .error _ => none

/-- Every source and window of `bs` is alerted in `as`, at the same event or earlier. -/
def NoLater (as bs : List Alert) : Prop :=
  ∀ b ∈ bs, ∃ a ∈ as, a.windowId = b.windowId ∧ a.srcIp = b.srcIp ∧ a.eventIndex ≤ b.eventIndex

/-- The number of events of a window. -/
def eventsIn (outs : List PortScanDetector.Output) (w : UInt64) : ℕ :=
  outs.countP fun out => out.windowId = w

/-- The number of events of a source in a window. -/
def eventsOf (outs : List PortScanDetector.Output) (events : List NetworkEvent) (w : UInt64)
    (x : UInt32) : ℕ :=
  (outs.zip events).countP fun p => p.1.windowId = w ∧ p.2.srcIp = x

/-! ## The runs -/

/-- A run of a detector whose estimator is fresh. -/
theorem follows_runAlgo {cfg : DetectorConfig} {algo : String} {e₀ : Estimator}
    (hmake : makeEstimator { cfg with algo := algo } = .ok e₀) (hfresh : e₀.Fresh)
    (events : List NetworkEvent) :
    ∃ d outs, runAlgo cfg algo events = some (d, outs) ∧
      Follows { cfg with algo := algo } e₀ (windowsOf cfg events) d ∧
      outs.map (·.windowId) = (windowsOf cfg events).log.map fun p => UInt64.ofNat p.1 := by
  have hnew : PortScanDetector.create { cfg with algo := algo } = .ok _ :=
    congrArg (Except.map _) hmake
  obtain ⟨d, outs, hrun, hfollows, hids, -⟩ := follows_run hnew hfresh events
  exact ⟨d, outs, by rw [runAlgo, hnew]; exact hrun, hfollows, hids⟩

theorem makeEstimator_mg (cfg : DetectorConfig) (hk : 2 ≤ cfg.mgK) :
    ∃ h, HeavyHitters.create cfg.mgK = .ok h ∧
      makeEstimator { cfg with algo := "mg" } = .ok (.heavyHitters h) := by
  obtain ⟨h, hnew⟩ : ∃ h, HeavyHitters.create cfg.mgK = .ok h := by
    rw [HeavyHitters.create, dif_pos hk]
    exact ⟨_, rfl⟩
  refine ⟨h, hnew, ?_⟩
  show (HeavyHitters.create cfg.mgK).map _ = _
  rw [hnew]
  rfl

theorem makeEstimator_hashmap (cfg : DetectorConfig) :
    makeEstimator { cfg with algo := "hashmap" } = .ok (.hashMapExact .create) :=
  rfl

theorem makeEstimator_cms (cfg : DetectorConfig) :
    makeEstimator { cfg with algo := "cms" }
      = .ok (.countMinSketch (.create cfg.cmsWidth cfg.cmsDepth)) :=
  rfl

/-- The counts that the outputs of a run show are those of the log. -/
theorem counts_eq {log : List (ℕ × NetworkEvent)} {events : List NetworkEvent}
    {outs : List PortScanDetector.Output}
    (hids : outs.map (·.windowId) = log.map fun p => UInt64.ofNat p.1)
    (hevents : log.map (·.2) = events) (w : UInt64) (x : UInt32) :
    eventsIn outs w = (log.countP fun p => UInt64.ofNat p.1 = w) ∧
      eventsOf outs events w x = log.countP fun p => UInt64.ofNat p.1 = w ∧ p.2.srcIp = x := by
  constructor
  · calc eventsIn outs w = (outs.map (·.windowId)).countP fun id => id = w := by
          rw [List.countP_map]
          rfl
      _ = _ := by
          rw [hids, List.countP_map]
          rfl
  · calc eventsOf outs events w x
        = ((outs.map (·.windowId)).zip events).countP fun p => p.1 = w ∧ p.2.srcIp = x := by
          rw [List.zip_map_left, List.countP_map]
          rfl
      _ = ((log.map fun p => UInt64.ofNat p.1).zip (log.map (·.2))).countP fun p =>
            p.1 = w ∧ p.2.srcIp = x := by
          rw [hids, hevents]
      _ = _ := by
          rw [List.zip_map', List.countP_map]
          rfl

/-! ## The order of the alerts -/

/-- **The three detectors agree** on the windows of the events.  With fewer than
`2^64` events, what `mg` alerts is alerted by `hashmap`, what `hashmap` alerts is
alerted by `cms`, each no later, and `mg` misses no source that is frequent
enough in its window. -/
theorem alerts_ordered (cfg : DetectorConfig) (events : List NetworkEvent)
    (hw : 1 ≤ cfg.cmsWidth) (hd : 1 ≤ cfg.cmsDepth) (hk : 2 ≤ cfg.mgK) :
    ∃ mg hashmap cms mgOuts hashmapOuts cmsOuts,
      runAlgo cfg "mg" events = some (mg, mgOuts) ∧
      runAlgo cfg "hashmap" events = some (hashmap, hashmapOuts) ∧
      runAlgo cfg "cms" events = some (cms, cmsOuts) ∧
      mgOuts.map (·.windowId) = hashmapOuts.map (·.windowId) ∧
      hashmapOuts.map (·.windowId) = cmsOuts.map (·.windowId) ∧
      (events.length < 2 ^ 64 →
        NoLater hashmap.alerts mg.alerts ∧ NoLater cms.alerts hashmap.alerts ∧
        ∀ w x, eventsIn mgOuts w
            < cfg.mgK.toNat * (eventsOf mgOuts events w x - cfg.threshold.toNat) →
          ∃ a ∈ mg.alerts, a.windowId = w ∧ a.srcIp = x) := by
  obtain ⟨h, hnew, hmake⟩ := makeEstimator_mg cfg hk
  obtain ⟨mg, mgOuts, hmg, hmgFollows, hmgIds⟩ := follows_runAlgo hmake (.heavyHitters hnew) events
  obtain ⟨hashmap, hashmapOuts, hhash, hhashFollows, hhashIds⟩ :=
    follows_runAlgo (makeEstimator_hashmap cfg) .hashMapExact events
  obtain ⟨cms, cmsOuts, hcms, hcmsFollows, hcmsIds⟩ :=
    follows_runAlgo (makeEstimator_cms cfg) (.countMinSketch hw _) events
  refine ⟨mg, hashmap, cms, mgOuts, hashmapOuts, cmsOuts, hmg, hhash, hcms,
    hmgIds.trans hhashIds.symm, hhashIds.trans hcmsIds.symm, fun hlen => ?_⟩
  have hloglen : (windowsOf cfg events).log.length < 2 ^ 64 :=
    lt_of_eq_of_lt (length_log events) hlen
  refine ⟨?_, ?_, fun w x hfreq => ?_⟩
  -- below `2^64` the counter of `hashmap` is exact, between the two estimates
  · refine hmgFollows.alerts_le hhashFollows rfl hloglen fun l x hl hover => ?_
    have hl' := lt_of_le_of_lt hl hloglen
    rw [Estimator.estimateAfter_hashMapExact_of_lt hl']
    exact lt_of_lt_of_le hover (Estimator.estimateAfter_heavyHitters hnew hl' x).1
  · refine hhashFollows.alerts_le hcmsFollows rfl hloglen fun l x hl hover => ?_
    have hl' := lt_of_le_of_lt hl hloglen
    rw [Estimator.estimateAfter_hashMapExact_of_lt hl'] at hover
    exact lt_of_lt_of_le hover (Estimator.estimateAfter_countMinSketch hw hd hl' x).1
  · obtain ⟨hin, hof⟩ := counts_eq hmgIds (map_snd_log events) w x
    rw [hin, hof] at hfreq
    exact hmgFollows.exists_alert hlen
      (fun l x hl => (Estimator.estimateAfter_heavyHitters hnew hl x).2) w x hfreq

/-- Three connections of one host, and one of another. -/
theorem alerts_ordered_scan :
    ∃ mg hashmap mgOuts hashmapOuts,
      runAlgo { algo := "", mgK := 2, threshold := 1 } "mg"
        [⟨7, 1, 22, 5⟩, ⟨7, 1, 23, 6⟩, ⟨8, 1, 22, 7⟩, ⟨7, 1, 24, 8⟩] = some (mg, mgOuts) ∧
      runAlgo { algo := "", mgK := 2, threshold := 1 } "hashmap"
        [⟨7, 1, 22, 5⟩, ⟨7, 1, 23, 6⟩, ⟨8, 1, 22, 7⟩, ⟨7, 1, 24, 8⟩]
        = some (hashmap, hashmapOuts) ∧
      NoLater hashmap.alerts mg.alerts := by
  obtain ⟨mg, hashmap, cms, mgOuts, hashmapOuts, cmsOuts, hmg, hhash, -, -, -, hord⟩ :=
    alerts_ordered { algo := "", mgK := 2, threshold := 1 }
      [⟨7, 1, 22, 5⟩, ⟨7, 1, 23, 6⟩, ⟨8, 1, 22, 7⟩, ⟨7, 1, 24, 8⟩] (by decide) (by decide)
      (by decide)
  exact ⟨mg, hashmap, mgOuts, hashmapOuts, hmg, hhash, (hord (by decide)).1⟩

/-! ## Beyond `2^64` events -/

/-- `n` connections of the host `2`, then one of the host `1`, all at one time. -/
def flood (n : ℕ) : List NetworkEvent :=
  List.replicate n ⟨2, 9, 80, 1⟩ ++ [⟨1, 9, 80, 1⟩]

theorem timestampNs_flood (n : ℕ) : ∀ e ∈ flood n, e.timestampNs = 1 := by
  intro e he
  rcases List.mem_append.mp he with he | he
  · rw [List.eq_of_mem_replicate he]
  · rw [List.mem_singleton.mp he]

/-- Connections at one time, of which the last is the only one of its source: the
source is alerted exactly when the estimate at the end exceeds the threshold, and the
alert shows that estimate. -/
theorem alert_of_last {cfg : DetectorConfig} {e₀ : Estimator} {d : PortScanDetector}
    {l : List NetworkEvent} {evt : NetworkEvent} {t : UInt64}
    (htime : ∀ e ∈ l ++ [evt], e.timestampNs = t) (hnew : ∀ e ∈ l, e.srcIp ≠ evt.srcIp)
    (h : Follows cfg e₀ (windowsOf cfg (l ++ [evt])) d) :
    ((∃ a ∈ d.alerts, a.srcIp = evt.srcIp) ↔ cfg.threshold.toNat
        < e₀.estimateAfter (l.map NetworkEvent.srcIp ++ [evt.srcIp]) evt.srcIp) ∧
      ∀ a ∈ d.alerts, a.srcIp = evt.srcIp → a.freq.toNat
        = e₀.estimateAfter (l.map NetworkEvent.srcIp ++ [evt.srcIp]) evt.srcIp := by
  have hlog : (windowsOf cfg (l ++ [evt])).log = (l ++ [evt]).map (Prod.mk 0) :=
    log_of_time_eq htime
  -- an alert of the source is raised by the last connection: there is no other of the source
  have hindex : ∀ a ∈ d.alerts, a.srcIp = evt.srcIp →
      Raised NetworkEvent.srcIp e₀.estimateAfter cfg.threshold.toNat
        ((l ++ [evt]).map (Prod.mk 0)) l.length ∧
      alertAt cfg e₀ ((l ++ [evt]).map (Prod.mk 0)) l.length = some a := by
    intro a ha hsrc
    obtain ⟨i, hraised, halert⟩ := (h.mem_alerts a).mp ha
    obtain ⟨p, hp, -⟩ := hraised.1
    obtain ⟨a', ha', -, hsrc', -⟩ := alertAt_eq_some cfg e₀ hp
    obtain rfl := Option.some.inj (halert.symm.trans ha')
    rw [hlog] at hraised halert hp
    have hi : entry NetworkEvent.srcIp ((l ++ [evt]).map (Prod.mk 0)) i
        = some (p.1, evt.srcIp) := by
      rw [hp, ← hsrc, hsrc']
    obtain ⟨-, rfl, -⟩ : _ ∧ i = l.length ∧ (Over NetworkEvent.srcIp e₀.estimateAfter
      cfg.threshold.toNat ((l ++ [evt]).map (Prod.mk 0)) i ↔ _) := over_append_new hnew hi
    exact ⟨hraised, halert⟩
  have hlast : entry NetworkEvent.srcIp ((l ++ [evt]).map (Prod.mk 0)) l.length
      = some (0, evt.srcIp) := by
    rw [entry, List.getElem?_map, List.getElem?_concat_length]
    rfl
  have hover : Over NetworkEvent.srcIp e₀.estimateAfter cfg.threshold.toNat
      ((l ++ [evt]).map (Prod.mk 0)) l.length ↔ _ := (over_append_new hnew hlast).2.2
  refine ⟨⟨?_, fun hest => ?_⟩, fun a ha hsrc => ?_⟩
  · rintro ⟨a, ha, hsrc⟩
    exact hover.mp (hindex a ha hsrc).1.1
  · obtain ⟨j, -, hentry, hraised⟩ := exists_raised_le (hover.mpr hest)
    have hj := hentry.trans hlast
    rw [← hlog] at hj hraised
    obtain ⟨a, ha, -, hsrc, -⟩ := alertAt_eq_some cfg e₀ hj
    exact ⟨a, (h.mem_alerts a).mpr ⟨j, hraised, ha⟩, hsrc⟩
  · obtain ⟨freq, hfreq⟩ := e₀.exists_toNat_estimateAfter
      (stream NetworkEvent.srcIp (l.map (Prod.mk 0)) 0 ++ [evt.srcIp]) evt.srcIp
    have halert := (hindex a ha hsrc).2
    rw [List.map_append, List.map_singleton, ← List.length_map (Prod.mk 0),
      alertAt_append_last 0 evt hfreq] at halert
    rw [← Option.some.inj halert, hfreq, stream_map_mk]

/-- The host `1` is alerted exactly when the estimate of its one connection, at
the end, exceeds the threshold. -/
theorem exists_alert_flood {cfg : DetectorConfig} {e₀ : Estimator} {d : PortScanDetector} {n : ℕ}
    (h : Follows cfg e₀ (windowsOf cfg (flood n)) d) :
    (∃ a ∈ d.alerts, a.srcIp = 1) ↔
      cfg.threshold.toNat < e₀.estimateAfter (List.replicate n 2 ++ [1]) 1 := by
  have hnew : ∀ e ∈ List.replicate n (⟨2, 9, 80, 1⟩ : NetworkEvent), e.srcIp ≠ 1 := by
    intro e he
    rw [List.eq_of_mem_replicate he]
    decide
  have hlast := (alert_of_last (timestampNs_flood n) hnew h).1
  rwa [List.map_replicate] at hlast

/-- In a sketch of one cell, `2^64 - 1` connections of one host hide the
connection of another one from `cms`, not from `hashmap`. -/
theorem not_noLater_collision :
    ∃ hashmap cms hashmapOuts cmsOuts,
      runAlgo { algo := "", cmsWidth := 1, cmsDepth := 1, threshold := 0 } "hashmap"
        (flood (2 ^ 64 - 1)) = some (hashmap, hashmapOuts) ∧
      runAlgo { algo := "", cmsWidth := 1, cmsDepth := 1, threshold := 0 } "cms"
        (flood (2 ^ 64 - 1)) = some (cms, cmsOuts) ∧
      ¬ NoLater cms.alerts hashmap.alerts := by
  have hn : 2 ^ 64 - 1 + 1 = 2 ^ 64 := Nat.sub_add_cancel (by norm_num)
  generalize 2 ^ 64 - 1 = n at hn
  obtain ⟨hashmap, hashmapOuts, hhash, hhashFollows, -⟩ := follows_runAlgo
    (makeEstimator_hashmap { algo := "", cmsWidth := 1, cmsDepth := 1, threshold := 0 })
    .hashMapExact (flood n)
  obtain ⟨cms, cmsOuts, hcms, hcmsFollows, -⟩ := follows_runAlgo
    (makeEstimator_cms { algo := "", cmsWidth := 1, cmsDepth := 1, threshold := 0 })
    (.countMinSketch (by decide) _) (flood n)
  refine ⟨hashmap, cms, hashmapOuts, cmsOuts, hhash, hcms, fun hord => ?_⟩
  have hexact : 0 < (Estimator.hashMapExact .create).estimateAfter
      (List.replicate n 2 ++ [1]) 1 := by
    rw [Estimator.estimateAfter_hashMapExact, List.count_append, List.count_replicate,
      if_neg (by decide)]
    decide
  obtain ⟨b, hb, hsrc⟩ := (exists_alert_flood hhashFollows).mpr hexact
  obtain ⟨a, ha, -, hsrc', -⟩ := hord b hb
  have hover := (exists_alert_flood hcmsFollows).mp ⟨a, ha, hsrc'.trans hsrc⟩
  have hcell : CountMinSketch.column 1 0 (u32Bytes 2) = CountMinSketch.column 1 0 (u32Bytes 1) := by
    decide +kernel
  rw [Estimator.estimateAfter_collision (by decide) (by decide) hcell hn] at hover
  exact absurd hover (lt_irrefl _)

end Portscan
