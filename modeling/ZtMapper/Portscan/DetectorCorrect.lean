/-
# What a `PortScanDetector` alerts

A run of the detector follows the tumbling windows of its events: `Follows` ties
the state to their log, `follows_process` is the step and `follows_run` the run.
The alerts are the raised entries of the log, so two detectors on the same
events compare as their estimators do.
-/
import ZtMapper.Frequency.Watch
import ZtMapper.Portscan.Detector

open Frequency Tumbling WindowLog

namespace Portscan

/-- The windows of the events, under a configuration. -/
def windowsOf (cfg : DetectorConfig) (events : List NetworkEvent) : Windows NetworkEvent :=
  windows NetworkEvent.timestampNs cfg.windowNs events

/-- The alert of entry `i` of the log. -/
def alertAt (cfg : DetectorConfig) (e₀ : Estimator) (log : List (ℕ × NetworkEvent)) (i : ℕ) :
    Option Alert :=
  log[i]?.map fun p =>
    { algo := cfg.algo
      srcIp := p.2.srcIp
      freq := UInt64.ofNat
        (e₀.estimateAfter (stream NetworkEvent.srcIp (log.take (i + 1)) p.1) p.2.srcIp)
      timestampNs := p.2.timestampNs
      windowId := UInt64.ofNat p.1
      eventIndex := UInt64.ofNat (i + 1) }

/-- The raised entries of the log. -/
abbrev raisedOf (cfg : DetectorConfig) (e₀ : Estimator) (log : List (ℕ × NetworkEvent)) : List ℕ :=
  raised NetworkEvent.srcIp e₀.estimateAfter cfg.threshold.toNat log

/-- The state after the events of `s`. -/
structure Follows (cfg : DetectorConfig) (e₀ : Estimator) (s : Windows NetworkEvent)
    (d : PortScanDetector) : Prop where
  cfg_eq : d.cfg = cfg
  watch : Watch NetworkEvent.srcIp e₀ cfg.threshold.toNat s d.estimator d.alertedInWindow
  alerts_eq : d.alerts = (raisedOf cfg e₀ s.log).filterMap (alertAt cfg e₀ s.log)
  totalEvents_eq : d.totalEvents = UInt64.ofNat s.log.length
  windowStartNs_eq : d.windowStartNs = s.start
  windowId_eq : d.windowId = UInt64.ofNat s.number

variable {cfg : DetectorConfig} {e₀ : Estimator} {s : Windows NetworkEvent} {d : PortScanDetector}

theorem follows_create {d : PortScanDetector} (hnew : PortScanDetector.create cfg = .ok d) :
    Follows cfg d.estimator ⟨0, 0, []⟩ d := by
  obtain ⟨e, -, rfl⟩ : ∃ e, makeEstimator cfg = .ok e ∧ _ = d := by
    unfold PortScanDetector.create at hnew
    cases he : makeEstimator cfg with
    | error msg => rw [he] at hnew; cases hnew
    | ok e => rw [he] at hnew; exact ⟨e, rfl, Except.ok.inj hnew⟩
  exact ⟨rfl, Watch.init _ _ _ _, rfl, rfl, rfl, rfl⟩

/-- The window logic in its two cases. -/
theorem maybeResetWindow_eq (d : PortScanDetector) (now : UInt64) :
    d.maybeResetWindow now = if ends d.cfg.windowNs d.windowStartNs now then
        { d with
          estimator := d.estimator.reset
          alertedInWindow := ∅
          windowStartNs := now
          windowId := d.windowId + 1 }
      else { d with windowStartNs := startAt d.cfg.windowNs d.windowStartNs now } := by
  unfold PortScanDetector.maybeResetWindow startAt
  by_cases h0 : d.windowStartNs = 0
  · rw [if_pos h0]
    simp [h0, ends]
  · rw [if_neg h0]
    by_cases hlong : now - d.windowStartNs > d.cfg.windowNs
    · have hends : ends d.cfg.windowNs d.windowStartNs now = true := by
        simpa [ends, h0] using hlong
      rw [if_pos hlong, hends]
      rfl
    · have hends : ends d.cfg.windowNs d.windowStartNs now = false := by
        simpa [ends, h0] using hlong
      rw [if_neg hlong, hends]
      simp [h0]

@[simp] theorem cfg_maybeResetWindow (d : PortScanDetector) (now : UInt64) :
    (d.maybeResetWindow now).cfg = d.cfg := by
  rw [maybeResetWindow_eq]
  split_ifs <;> rfl

@[simp] theorem alerts_maybeResetWindow (d : PortScanDetector) (now : UInt64) :
    (d.maybeResetWindow now).alerts = d.alerts := by
  rw [maybeResetWindow_eq]
  split_ifs <;> rfl

@[simp] theorem windowStartNs_maybeResetWindow (d : PortScanDetector) (now : UInt64) :
    (d.maybeResetWindow now).windowStartNs = startAt d.cfg.windowNs d.windowStartNs now := by
  rw [maybeResetWindow_eq]
  split_ifs with hends
  · rw [startAt, if_pos (by simp [hends])]
  · rfl

/-- The window logic of the detector is that of the log. -/
theorem follows_maybeResetWindow (h : Follows cfg e₀ s d) (hfresh : e₀.Fresh) (now : UInt64) :
    Follows cfg e₀ (advance cfg.windowNs s now) (d.maybeResetWindow now) := by
  have hstart : (d.maybeResetWindow now).windowStartNs = (advance cfg.windowNs s now).start := by
    rw [windowStartNs_maybeResetWindow, h.cfg_eq, h.windowStartNs_eq]
    rfl
  rw [maybeResetWindow_eq, h.cfg_eq, h.windowStartNs_eq] at hstart ⊢
  rw [advance] at hstart ⊢
  split_ifs at hstart ⊢
  · refine ⟨rfl, h.watch.ended hfresh _, h.alerts_eq, h.totalEvents_eq, hstart, ?_⟩
    show d.windowId + 1 = UInt64.ofNat (s.number + 1)
    rw [h.windowId_eq, UInt64.ofNat_add]
    rfl
  · exact ⟨rfl, h.watch.restart _, h.alerts_eq, h.totalEvents_eq, hstart, h.windowId_eq⟩

/-- The alerts of a longer log. -/
theorem alertAt_append_of_lt {log : List (ℕ × NetworkEvent)} {i : ℕ} (hi : i < log.length)
    (p : ℕ × NetworkEvent) : alertAt cfg e₀ (log ++ [p]) i = alertAt cfg e₀ log i := by
  rw [alertAt, alertAt, List.getElem?_append_left hi,
    List.take_append_of_le_length (Nat.succ_le_of_lt hi)]

/-- The alert of the last entry. -/
theorem alertAt_append_last {log : List (ℕ × NetworkEvent)} (w : ℕ) (evt : NetworkEvent)
    {freq : UInt64} (hfreq : freq.toNat
      = e₀.estimateAfter (stream NetworkEvent.srcIp log w ++ [evt.srcIp]) evt.srcIp) :
    alertAt cfg e₀ (log ++ [(w, evt)]) log.length = some
      { algo := cfg.algo
        srcIp := evt.srcIp
        freq := freq
        timestampNs := evt.timestampNs
        windowId := UInt64.ofNat w
        eventIndex := UInt64.ofNat (log.length + 1) } := by
  rw [alertAt, List.getElem?_concat_length, List.take_of_length_le (by simp), Option.map_some]
  dsimp only
  rw [stream_append_self, ← hfreq, UInt64.ofNat_toNat]

/-- The alerts of a log with one more entry. -/
theorem filterMap_raised_append (log : List (ℕ × NetworkEvent)) (p : ℕ × NetworkEvent) :
    (raisedOf cfg e₀ (log ++ [p])).filterMap (alertAt cfg e₀ (log ++ [p]))
      = (raisedOf cfg e₀ log).filterMap (alertAt cfg e₀ log) ++
        if Raised NetworkEvent.srcIp e₀.estimateAfter cfg.threshold.toNat (log ++ [p]) log.length
        then (alertAt cfg e₀ (log ++ [p]) log.length).toList else [] := by
  rw [raisedOf, raised_append, List.filterMap_append]
  congr 1
  · refine List.filterMap_congr fun i hi => ?_
    exact alertAt_append_of_lt (mem_raised.mp hi).1.lt_length p
  · split_ifs
    · cases h : alertAt cfg e₀ (log ++ [p]) log.length <;> simp [h]
    · rfl

/-- **One event**: the detector returns whether the new entry is raised. -/
theorem follows_process (h : Follows cfg e₀ s d) (hfresh : e₀.Fresh) (evt : NetworkEvent) :
    ∃ d' emitted, d.process evt = some (d', emitted) ∧
      (emitted = decide (Raised NetworkEvent.srcIp e₀.estimateAfter cfg.threshold.toNat
        (next NetworkEvent.timestampNs cfg.windowNs s evt).log s.log.length)) ∧
      Follows cfg e₀ (next NetworkEvent.timestampNs cfg.windowNs s evt) d' := by
  have h1 := follows_maybeResetWindow h hfresh evt.timestampNs
  have hlog : (advance cfg.windowNs s evt.timestampNs).log = s.log := rfl
  unfold PortScanDetector.process next
  -- what the window step leaves is all that the rest of the step reads
  generalize d.maybeResetWindow evt.timestampNs = d₁ at h1
  generalize advance cfg.windowNs s evt.timestampNs = s₁ at h1 hlog
  rw [← hlog]
  obtain ⟨estimator', freq, hrec, hfreq, hval, hwatch, hraised⟩ := h1.watch.counted hfresh evt
  have hcond : freq > d₁.cfg.threshold ∧ evt.srcIp ∉ d₁.alertedInWindow
      ↔ cfg.threshold.toNat < freq.toNat ∧ evt.srcIp ∉ d₁.alertedInWindow := by
    rw [h1.cfg_eq, gt_iff_lt, UInt64.lt_iff_toNat_lt]
  have htotal : d₁.totalEvents + 1 = UInt64.ofNat (s₁.log.length + 1) := by
    rw [h1.totalEvents_eq, UInt64.ofNat_add]
    rfl
  have hlen : (count s₁ evt).log.length = s₁.log.length + 1 := List.length_append
  have halerts : (raisedOf cfg e₀ (count s₁ evt).log).filterMap (alertAt cfg e₀ (count s₁ evt).log)
      = _ := filterMap_raised_append s₁.log (s₁.number, evt)
  rw [← h1.alerts_eq, alertAt_append_last s₁.number evt hval] at halerts
  simp only [Option.bind_eq_bind, hrec, hfreq, Option.bind_some]
  by_cases hc : freq > d₁.cfg.threshold ∧ evt.srcIp ∉ d₁.alertedInWindow
  · have hr := hraised.mpr (hcond.mp hc)
    rw [if_pos hc, decide_eq_true hr]
    rw [if_pos (hcond.mp hc)] at hwatch
    refine ⟨_, _, rfl, rfl, h1.cfg_eq, hwatch, ?_, hlen ▸ htotal, h1.windowStartNs_eq,
      h1.windowId_eq⟩
    show d₁.alerts ++ [_] = _
    rw [halerts, h1.cfg_eq, htotal, h1.windowId_eq]
    congr 1
    exact (if_pos hr).symm
  · have hr := fun hr => hc (hcond.mpr (hraised.mp hr))
    rw [if_neg hc, decide_eq_false hr]
    rw [if_neg (fun h => hc (hcond.mpr h))] at hwatch
    refine ⟨_, _, rfl, rfl, h1.cfg_eq, hwatch, ?_, hlen ▸ htotal, h1.windowStartNs_eq,
      h1.windowId_eq⟩
    show d₁.alerts = _
    rw [halerts]
    exact (List.append_nil _).symm.trans (congrArg _ (if_neg hr).symm)

/-! ## Runs -/

theorem run_append (d : PortScanDetector) (events : List NetworkEvent) (evt : NetworkEvent) :
    d.run (events ++ [evt]) = (d.run events).bind fun r => PortScanDetector.runStep r evt := by
  rw [PortScanDetector.run, List.foldlM_append, PortScanDetector.run]
  cases events.foldlM PortScanDetector.runStep (d, []) with
  | none => rfl
  | some r => simp

/-- **A run** follows the windows of its events; the outputs of the calls are the
window of each event and whether its entry is raised. -/
theorem follows_run (hnew : PortScanDetector.create cfg = .ok d) (hfresh : d.estimator.Fresh)
    (events : List NetworkEvent) :
    ∃ d' outs, d.run events = some (d', outs) ∧
      Follows cfg d.estimator (windowsOf cfg events) d' ∧
      outs.map (·.windowId) = (windowsOf cfg events).log.map (fun p => UInt64.ofNat p.1) ∧
      outs.map (·.emitted) = (List.range events.length).map fun i =>
        decide (Raised NetworkEvent.srcIp d.estimator.estimateAfter cfg.threshold.toNat
          (windowsOf cfg events).log i) := by
  induction events using List.reverseRecOn with
  | nil => exact ⟨d, [], rfl, follows_create hnew, rfl, rfl⟩
  | append_singleton events evt ih =>
    obtain ⟨d', outs, hrun, h, hids, hemitted⟩ := ih
    obtain ⟨d'', emitted, hproc, hemit, h'⟩ := follows_process h hfresh evt
    have hnext : windowsOf cfg (events ++ [evt])
        = next NetworkEvent.timestampNs cfg.windowNs (windowsOf cfg events) evt :=
      windows_append events evt
    have hlen : (windowsOf cfg events).log.length = events.length := length_log events
    refine ⟨d'', outs ++ [{ emitted := emitted, windowId := d''.windowId }], ?_, hnext ▸ h', ?_, ?_⟩
    · rw [run_append, hrun, Option.bind_some, PortScanDetector.runStep, hproc]
      rfl
    · rw [List.map_append, hids, hnext, next, count, List.map_append, List.map_singleton,
        h'.windowId_eq]
      rfl
    · rw [List.map_append, hemitted, List.length_append, List.length_singleton, List.range_succ,
        List.map_append, List.map_singleton, List.map_singleton, hemit, hlen, hnext]
      congr 1
      -- the earlier entries are raised or not as before
      refine List.map_congr_left fun i hi => ?_
      rw [decide_eq_decide]
      refine (raised_append_of_lt ?_ _).symm
      exact lt_of_lt_of_eq (List.mem_range.mp hi) hlen.symm

/-- The alerts are those of the raised entries. -/
theorem Follows.mem_alerts (h : Follows cfg e₀ s d) (a : Alert) :
    a ∈ d.alerts ↔ ∃ i, Raised NetworkEvent.srcIp e₀.estimateAfter cfg.threshold.toNat s.log i ∧
      alertAt cfg e₀ s.log i = some a := by
  rw [h.alerts_eq, List.mem_filterMap]
  refine exists_congr fun i => and_congr_left fun _ => mem_raised

/-- What the alert of an entry shows of it. -/
theorem alertAt_eq_some (cfg : DetectorConfig) (e₀ : Estimator) {log : List (ℕ × NetworkEvent)}
    {i : ℕ} {p : ℕ × UInt32} (h : entry NetworkEvent.srcIp log i = some p) :
    ∃ a, alertAt cfg e₀ log i = some a ∧ a.windowId = UInt64.ofNat p.1 ∧ a.srcIp = p.2 ∧
      a.eventIndex = UInt64.ofNat (i + 1) := by
  obtain ⟨e, he, rfl⟩ := Option.map_eq_some_iff.mp h
  exact ⟨_, by rw [alertAt, he]; rfl, rfl, rfl, rfl⟩

/-! ## Detectors compared -/

/-- **A detector whose estimates dominate** alerts every source of every window
the other one alerts, at the same event or earlier. -/
theorem Follows.alerts_le {cfg' : DetectorConfig} {e₀' : Estimator} {d' : PortScanDetector}
    (h : Follows cfg e₀ s d) (h' : Follows cfg' e₀' s d') (hthreshold : cfg'.threshold = cfg.threshold)
    (hlen : s.log.length < 2 ^ 64)
    (hdom : ∀ l x, l.length ≤ s.log.length → cfg.threshold.toNat < e₀.estimateAfter l x →
      cfg.threshold.toNat < e₀'.estimateAfter l x) :
    ∀ a ∈ d.alerts, ∃ b ∈ d'.alerts, b.windowId = a.windowId ∧ b.srcIp = a.srcIp ∧
      b.eventIndex ≤ a.eventIndex := by
  intro a ha
  obtain ⟨i, hraised, halert⟩ := (h.mem_alerts a).mp ha
  obtain ⟨p, hp, -⟩ := hraised.1
  obtain ⟨a', ha', hwindow, hsrc, hindex⟩ := alertAt_eq_some cfg e₀ hp
  obtain rfl := Option.some.inj (halert.symm.trans ha')
  obtain ⟨j, hji, hentry, hraised'⟩ := hraised.mono hdom
  obtain ⟨b, hb, hwindow', hsrc', hindex'⟩ :=
    alertAt_eq_some cfg' e₀' (hentry.trans hp)
  refine ⟨b, (h'.mem_alerts b).mpr ⟨j, hthreshold ▸ hraised', hb⟩, hwindow'.trans hwindow.symm,
    hsrc'.trans hsrc.symm, ?_⟩
  have hi := lt_of_entry_eq_some hp
  have hnat : ∀ n < 2 ^ 64, (UInt64.ofNat n).toNat = n := fun n hn => UInt64.toNat_ofNat_of_lt' hn
  rw [hindex, hindex', UInt64.le_iff_toNat_le, hnat _ (by omega), hnat _ (by omega)]
  omega

/-- Below `2^64` the number of a window can be read off its identifier. -/
theorem ofNat_window_eq_iff {events : List NetworkEvent} (hlen : events.length < 2 ^ 64)
    {v w : ℕ} (hv : ∃ p ∈ (windowsOf cfg events).log, p.1 = v)
    (hw : ∃ p ∈ (windowsOf cfg events).log, p.1 = w) :
    UInt64.ofNat v = UInt64.ofNat w ↔ v = w := by
  have hlt : ∀ v, (∃ p ∈ (windowsOf cfg events).log, p.1 = v) → v < 2 ^ 64 := by
    rintro _ ⟨p, hp, rfl⟩
    calc p.1 ≤ (windowsOf cfg events).number := le_number events p hp
      _ ≤ events.length := number_le events
      _ < 2 ^ 64 := hlen
  rw [← UInt64.toNat_inj, UInt64.toNat_ofNat_of_lt' (hlt v hv), UInt64.toNat_ofNat_of_lt' (hlt w hw)]

/-- The stream of a window, for its identifier as the detector shows it, in a
part of the log. -/
theorem length_count_stream {events : List NetworkEvent} (hlen : events.length < 2 ^ 64)
    {l : List (ℕ × NetworkEvent)} (hl : ∀ q ∈ l, q ∈ (windowsOf cfg events).log)
    {p : ℕ × NetworkEvent} (hp : p ∈ (windowsOf cfg events).log) {w : UInt64}
    (hpw : UInt64.ofNat p.1 = w) {x : UInt32} :
    (stream NetworkEvent.srcIp l p.1).length = (l.countP fun q => UInt64.ofNat q.1 = w) ∧
      (stream NetworkEvent.srcIp l p.1).count x
        = l.countP fun q => UInt64.ofNat q.1 = w ∧ q.2.srcIp = x := by
  have hid : ∀ q ∈ l, UInt64.ofNat q.1 = w ↔ q.1 = p.1 := by
    intro q hq
    rw [← hpw]
    exact ofNat_window_eq_iff hlen ⟨q, hl q hq, rfl⟩ ⟨p, hp, rfl⟩
  constructor
  · rw [length_stream]
    exact List.countP_congr fun q hq => by simpa using (hid q hq).symm
  · rw [count_stream]
    refine List.countP_congr fun q hq => ?_
    simp only [decide_eq_true_iff]
    exact and_congr_left fun _ => (hid q hq).symm

/-- A source that is frequent in a window, for the error of the estimator, is
alerted in it.  The window is given by its identifier, as the detector shows it. -/
theorem Follows.exists_alert {events : List NetworkEvent}
    (h : Follows cfg e₀ (windowsOf cfg events) d) (hlen : events.length < 2 ^ 64) {k : ℕ}
    (herr : ∀ l x, l.length < 2 ^ 64 → k * (l.count x - e₀.estimateAfter l x) ≤ l.length)
    (w : UInt64) (x : UInt32)
    (hfreq : ((windowsOf cfg events).log.countP fun p => UInt64.ofNat p.1 = w)
      < k * (((windowsOf cfg events).log.countP fun p => UInt64.ofNat p.1 = w ∧ p.2.srcIp = x)
        - cfg.threshold.toNat)) :
    ∃ a ∈ d.alerts, a.windowId = w ∧ a.srcIp = x := by
  have hloglen : (windowsOf cfg events).log.length = events.length := length_log events
  -- the window is the one of some entry with the source `x`
  obtain ⟨p, hp, hpw, -⟩ : ∃ p ∈ (windowsOf cfg events).log,
      UInt64.ofNat p.1 = w ∧ p.2.srcIp = x := by
    by_contra hnone
    have hzero : ((windowsOf cfg events).log.countP fun p =>
        UInt64.ofNat p.1 = w ∧ p.2.srcIp = x) = 0 :=
      List.countP_eq_zero.mpr fun p hp => by simpa using fun h1 h2 => hnone ⟨p, hp, h1, h2⟩
    rw [hzero, Nat.zero_sub, Nat.mul_zero] at hfreq
    exact absurd hfreq (Nat.not_lt_zero _)
  obtain ⟨hN, hf⟩ := length_count_stream hlen (fun _ => id) hp hpw
  rw [← hN, ← hf] at hfreq
  have hpos : 0 < (stream NetworkEvent.srcIp (windowsOf cfg events).log p.1).count x := by
    by_contra hzero
    rw [Nat.eq_zero_of_not_pos hzero, Nat.zero_sub, Nat.mul_zero] at hfreq
    exact absurd hfreq (Nat.not_lt_zero _)
  -- at the last event of the source its frequency is that of the whole window
  obtain ⟨i, hi, hcount⟩ := exists_count_eq hpos le_rfl
  have hsub := (stream_take_sublist NetworkEvent.srcIp (windowsOf cfg events).log (i + 1)
    p.1).length_le
  have hle := length_stream_le NetworkEvent.srcIp (windowsOf cfg events).log p.1
  have hover : Over NetworkEvent.srcIp e₀.estimateAfter cfg.threshold.toNat
      (windowsOf cfg events).log i := by
    refine ⟨_, hi, ?_⟩
    have he := herr (stream NetworkEvent.srcIp ((windowsOf cfg events).log.take (i + 1)) p.1) x
      (by omega)
    rw [hcount] at he
    show cfg.threshold.toNat
      < e₀.estimateAfter (stream NetworkEvent.srcIp ((windowsOf cfg events).log.take (i + 1)) p.1) x
    by_contra hnot
    have := Nat.mul_le_mul_left k (Nat.sub_le_sub_left (not_lt.mp hnot)
      ((stream NetworkEvent.srcIp (windowsOf cfg events).log p.1).count x))
    omega
  obtain ⟨j, -, hentry, hraised⟩ := exists_raised_le hover
  obtain ⟨a, ha, hwindow, hsrc, -⟩ := alertAt_eq_some cfg e₀ (hentry.trans hi)
  exact ⟨a, (h.mem_alerts a).mpr ⟨j, hraised, ha⟩, hwindow.trans hpw, hsrc⟩

end Portscan
