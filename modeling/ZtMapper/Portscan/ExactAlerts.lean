/-
# What the `hashmap` detector alerts

With exact counters a source is alerted at the event that makes its count in the
window `threshold + 1`, and at no other.  The counters and the indices are 64-bit:
past `2^64` events a source can be over every threshold and never alert.
-/
import ZtMapper.Portscan.Agreement

open Frequency Tumbling WindowLog

namespace Portscan

/-- The number of events of a source in a window, up to the event `i`. -/
def eventsUpTo (outs : List PortScanDetector.Output) (events : List NetworkEvent) (i : ℕ)
    (w : UInt64) (x : UInt32) : ℕ :=
  eventsOf (outs.take (i + 1)) (events.take (i + 1)) w x

/-- The alerts of a source in a window. -/
def alertsOf (d : PortScanDetector) (w : UInt64) (x : UInt32) : List Alert :=
  d.alerts.filter fun a => a.windowId = w ∧ a.srcIp = x

/-! ## Counts along the log -/

theorem length_log_lt (cfg : DetectorConfig) {events : List NetworkEvent}
    (hlen : events.length < 2 ^ 64) : (windowsOf cfg events).log.length < 2 ^ 64 :=
  lt_of_eq_of_lt (length_log events) hlen

/-- The count up to an event is that of the log up to it. -/
theorem eventsUpTo_eq {cfg : DetectorConfig} {events : List NetworkEvent}
    (hlen : events.length < 2 ^ 64) {outs : List PortScanDetector.Output}
    (hids : outs.map (·.windowId) = (windowsOf cfg events).log.map fun p => UInt64.ofNat p.1)
    {p : ℕ × NetworkEvent} (hp : p ∈ (windowsOf cfg events).log) (i : ℕ) (x : UInt32) :
    eventsUpTo outs events i (UInt64.ofNat p.1) x
      = (stream NetworkEvent.srcIp ((windowsOf cfg events).log.take (i + 1)) p.1).count x := by
  have hids' : (outs.take (i + 1)).map (·.windowId)
      = ((windowsOf cfg events).log.take (i + 1)).map fun p => UInt64.ofNat p.1 := by
    rw [List.map_take, hids, List.map_take]
  have hevents : ((windowsOf cfg events).log.take (i + 1)).map (·.2) = events.take (i + 1) := by
    rw [List.map_take]
    exact congrArg (List.take (i + 1)) (map_snd_log events)
  rw [eventsUpTo, (counts_eq hids' hevents _ x).2]
  exact (length_count_stream hlen (fun q => List.mem_of_mem_take) hp rfl).2.symm

/-- The count of a window is that of the log. -/
theorem eventsOf_eq {cfg : DetectorConfig} {events : List NetworkEvent}
    (hlen : events.length < 2 ^ 64) {outs : List PortScanDetector.Output}
    (hids : outs.map (·.windowId) = (windowsOf cfg events).log.map fun p => UInt64.ofNat p.1)
    {p : ℕ × NetworkEvent} (hp : p ∈ (windowsOf cfg events).log) (x : UInt32) :
    eventsOf outs events (UInt64.ofNat p.1) x
      = (stream NetworkEvent.srcIp (windowsOf cfg events).log p.1).count x := by
  rw [(counts_eq hids (map_snd_log events) _ x).2]
  exact (length_count_stream hlen (fun _ => id) hp rfl).2.symm

/-- The entry `i` of the log is raised when its event makes the count of its
source `threshold + 1`. -/
theorem raised_iff_eventsUpTo {cfg : DetectorConfig} {events : List NetworkEvent}
    (hlen : events.length < 2 ^ 64) {outs : List PortScanDetector.Output}
    (hids : outs.map (·.windowId) = (windowsOf cfg events).log.map fun p => UInt64.ofNat p.1)
    {i : ℕ} {p : ℕ × NetworkEvent} (hp : (windowsOf cfg events).log[i]? = some p) :
    Raised NetworkEvent.srcIp (Estimator.hashMapExact .create).estimateAfter cfg.threshold.toNat
        (windowsOf cfg events).log i ↔
      eventsUpTo outs events i (UInt64.ofNat p.1) p.2.srcIp = cfg.threshold.toNat + 1 := by
  rw [raised_iff_count_eq fun s x hs =>
      Estimator.estimateAfter_hashMapExact_of_lt (lt_of_le_of_lt hs (length_log_lt cfg hlen)) x,
    eventsUpTo_eq hlen hids (List.mem_of_getElem? hp)]
  have hentry : entry NetworkEvent.srcIp (windowsOf cfg events).log i = some (p.1, p.2.srcIp) := by
    rw [entry, hp]
    rfl
  constructor
  · rintro ⟨q, hq, hcount⟩
    obtain rfl := Option.some.inj (hentry.symm.trans hq)
    exact hcount
  · intro hcount
    exact ⟨_, hentry, hcount⟩

/-! ## The alerts -/

/-- The one element of a list that a partial function is defined at. -/
theorem filterMap_eq_singleton {α β : Type*} {f : α → Option β} {l : List α} (hl : l.Nodup)
    {a : α} (ha : a ∈ l) {b : β} (hb : f a = some b) (huniq : ∀ c ∈ l, f c ≠ none → c = a) :
    l.filterMap f = [b] := by
  obtain ⟨l₁, l₂, rfl⟩ := List.append_of_mem ha
  obtain ⟨-, hl₂, hdisj⟩ := List.nodup_append.mp hl
  have hnone : ∀ c, c ∈ l₁ ∨ c ∈ l₂ → f c = none := by
    intro c hc
    by_contra hcon
    obtain rfl := huniq c (by simp only [List.mem_append, List.mem_cons]; tauto) hcon
    rcases hc with hc | hc
    · exact hdisj c hc c List.mem_cons_self rfl
    · exact (List.nodup_cons.mp hl₂).1 hc
  rw [List.filterMap_append, List.filterMap_cons, hb,
    List.filterMap_eq_nil_iff.mpr fun c hc => hnone c (Or.inl hc),
    List.filterMap_eq_nil_iff.mpr fun c hc => hnone c (Or.inr hc), List.nil_append]

/-- The alerts of a source in a window are those of its raised entries. -/
theorem Follows.alertsOf_eq {cfg : DetectorConfig} {e₀ : Estimator} {s : Windows NetworkEvent}
    {d : PortScanDetector} (h : Follows cfg e₀ s d) (w : UInt64) (x : UInt32) :
    alertsOf d w x = (raisedOf cfg e₀ s.log).filterMap fun i =>
      (alertAt cfg e₀ s.log i).filter fun a => a.windowId = w ∧ a.srcIp = x := by
  rw [alertsOf, h.alerts_eq, List.filter_filterMap]

variable {cfg : DetectorConfig} {events : List NetworkEvent} {d : PortScanDetector}
  {outs : List PortScanDetector.Output}

/-- What is alerted of the entry `i`. -/
theorem alertAt_filter_eq (i : ℕ) {p : ℕ × NetworkEvent}
    (hp : (windowsOf cfg events).log[i]? = some p) (e₀ : Estimator) (w : UInt64) (x : UInt32) :
    ((alertAt cfg e₀ (windowsOf cfg events).log i).filter fun a => a.windowId = w ∧ a.srcIp = x)
        ≠ none ↔ UInt64.ofNat p.1 = w ∧ p.2.srcIp = x := by
  rw [alertAt, hp, Option.map_some, Option.filter_some]
  split_ifs with h <;> simpa using h

/-- A source with at most `threshold` events in a window is not alerted in it. -/
theorem Follows.alertsOf_eq_nil
    (h : Follows cfg (.hashMapExact .create) (windowsOf cfg events) d)
    (hlen : events.length < 2 ^ 64)
    (hids : outs.map (·.windowId) = (windowsOf cfg events).log.map fun p => UInt64.ofNat p.1)
    {w : UInt64} {x : UInt32} (hle : eventsOf outs events w x ≤ cfg.threshold.toNat) :
    alertsOf d w x = [] := by
  rw [h.alertsOf_eq, List.filterMap_eq_nil_iff]
  intro i hi
  have hraised := mem_raised.mp hi
  obtain ⟨p, hp⟩ : ∃ p, (windowsOf cfg events).log[i]? = some p :=
    ⟨_, List.getElem?_eq_getElem hraised.1.lt_length⟩
  by_contra hne
  obtain ⟨rfl, rfl⟩ := (alertAt_filter_eq i hp _ w x).mp hne
  have hcount := (raised_iff_eventsUpTo hlen hids hp).mp hraised
  have hmem := List.mem_of_getElem? hp
  rw [eventsUpTo_eq hlen hids hmem] at hcount
  rw [eventsOf_eq hlen hids hmem] at hle
  have := (stream_take_sublist NetworkEvent.srcIp (windowsOf cfg events).log (i + 1) p.1).count_le
    p.2.srcIp
  omega

/-- A source with more than `threshold` events in a window is alerted in it once,
at the event that is one over. -/
theorem Follows.alertsOf_eq_singleton
    (h : Follows cfg (.hashMapExact .create) (windowsOf cfg events) d)
    (hlen : events.length < 2 ^ 64)
    (hids : outs.map (·.windowId) = (windowsOf cfg events).log.map fun p => UInt64.ofNat p.1)
    {w : UInt64} {x : UInt32} (hlt : cfg.threshold.toNat < eventsOf outs events w x) :
    ∃ i evt, events[i]? = some evt ∧ evt.srcIp = x ∧ (outs.map (·.windowId))[i]? = some w ∧
      eventsUpTo outs events i w x = cfg.threshold.toNat + 1 ∧
      alertsOf d w x =
        [{ algo := cfg.algo
           srcIp := x
           freq := cfg.threshold + 1
           timestampNs := evt.timestampNs
           windowId := w
           eventIndex := UInt64.ofNat (i + 1) }] := by
  -- the window is the one of some entry with the source `x`
  obtain ⟨p, hp, rfl, rfl⟩ : ∃ p ∈ (windowsOf cfg events).log,
      UInt64.ofNat p.1 = w ∧ p.2.srcIp = x := by
    rw [(counts_eq hids (map_snd_log events) w x).2] at hlt
    obtain ⟨p, hp, hpx⟩ := List.countP_pos_iff.mp (Nat.zero_lt_of_lt hlt)
    exact ⟨p, hp, by simpa using hpx⟩
  rw [eventsOf_eq hlen hids hp] at hlt
  obtain ⟨i, hentry, hcount⟩ := exists_count_eq (n := cfg.threshold.toNat + 1) (Nat.succ_pos _) hlt
  obtain ⟨⟨v, evt⟩, hq, heq⟩ := Option.map_eq_some_iff.mp hentry
  obtain ⟨rfl, hsrc⟩ := Prod.mk.inj heq
  have hupTo := eventsUpTo_eq hlen hids hp i p.2.srcIp
  rw [hcount] at hupTo
  have hraised : Raised NetworkEvent.srcIp (Estimator.hashMapExact .create).estimateAfter
      cfg.threshold.toNat (windowsOf cfg events).log i :=
    (raised_iff_eventsUpTo hlen hids hq).mpr (hsrc ▸ hupTo)
  refine ⟨i, evt, ?_, hsrc, ?_, hupTo, ?_⟩
  · rw [← map_snd_log events, List.getElem?_map]
    exact congrArg (Option.map _) hq
  · rw [hids, List.getElem?_map, hq]
    rfl
  · rw [h.alertsOf_eq]
    refine filterMap_eq_singleton (List.nodup_range.filter _) (mem_raised.mpr hraised) ?_ ?_
    · have hstream : (stream NetworkEvent.srcIp
          ((windowsOf cfg events).log.take (i + 1)) p.1).length < 2 ^ 64 := by
        refine lt_of_le_of_lt ?_ (length_log_lt cfg hlen)
        exact (stream_take_sublist _ _ _ _).length_le.trans (length_stream_le _ _ _)
      have hfreq : UInt64.ofNat (cfg.threshold.toNat + 1) = cfg.threshold + 1 := by
        rw [UInt64.ofNat_add, UInt64.ofNat_toNat]
        rfl
      rw [alertAt, hq, Option.map_some, hsrc, Estimator.estimateAfter_hashMapExact_of_lt hstream,
        hcount, hfreq, Option.filter_some, if_pos (by simp)]
    · intro j hj hne
      have hraisedj := mem_raised.mp hj
      obtain ⟨q, hqj⟩ : ∃ q, (windowsOf cfg events).log[j]? = some q :=
        ⟨_, List.getElem?_eq_getElem hraisedj.1.lt_length⟩
      obtain ⟨hqw, hqx⟩ := (alertAt_filter_eq j hqj _ _ _).mp hne
      have hwindow : q.1 = p.1 := (ofNat_window_eq_iff hlen ⟨q, List.mem_of_getElem? hqj, rfl⟩
        ⟨p, hp, rfl⟩).mp hqw
      refine hraisedj.unique hraised ?_
      rw [hentry, entry, hqj, Option.map_some, hwindow, hqx]

/-- **The `hashmap` detector is exact** on fewer than `2^64` events: it raises one
alert for each window and source with more than `threshold` events, at the event
that is one over, and `process` answers `true` there and nowhere else. -/
theorem hashmap_alerts_exact (cfg : DetectorConfig) (events : List NetworkEvent)
    (hlen : events.length < 2 ^ 64) :
    ∃ d outs, runAlgo cfg "hashmap" events = some (d, outs) ∧
      outs.map (·.windowId) = (windowsOf cfg events).log.map (fun p => UInt64.ofNat p.1) ∧
      (∀ w x, eventsOf outs events w x ≤ cfg.threshold.toNat → alertsOf d w x = []) ∧
      (∀ w x, cfg.threshold.toNat < eventsOf outs events w x → ∃ i evt,
        events[i]? = some evt ∧ evt.srcIp = x ∧ (outs.map (·.windowId))[i]? = some w ∧
        eventsUpTo outs events i w x = cfg.threshold.toNat + 1 ∧
        alertsOf d w x =
          [{ algo := "hashmap"
             srcIp := x
             freq := cfg.threshold + 1
             timestampNs := evt.timestampNs
             windowId := w
             eventIndex := UInt64.ofNat (i + 1) }]) ∧
      ∀ i evt out, events[i]? = some evt → outs[i]? = some out → (out.emitted = true ↔
        eventsUpTo outs events i out.windowId evt.srcIp = cfg.threshold.toNat + 1) := by
  have hnew : PortScanDetector.create { cfg with algo := "hashmap" } = .ok _ :=
    congrArg (Except.map _) (makeEstimator_hashmap cfg)
  obtain ⟨d, outs, hrun, h, hids, hemitted⟩ := follows_run hnew .hashMapExact events
  refine ⟨d, outs, by rw [runAlgo, hnew]; exact hrun, hids, fun w x hle => ?_, fun w x hlt => ?_,
    fun i evt out hevt hout => ?_⟩
  · exact h.alertsOf_eq_nil hlen hids hle
  · exact h.alertsOf_eq_singleton hlen hids hlt
  · -- the call answers whether its entry is raised
    have hi : i < events.length := (List.getElem?_eq_some_iff.mp hevt).1
    have hemit := congrArg (fun l => l[i]?) hemitted
    simp only [List.getElem?_map, hout, List.getElem?_range hi, Option.map_some] at hemit
    obtain ⟨p, hp⟩ : ∃ p, (windowsOf cfg events).log[i]? = some p :=
      ⟨_, List.getElem?_eq_getElem (hi.trans_eq (length_log events).symm)⟩
    have hsnd : p.2 = evt := by
      have := hevt
      rw [← map_snd_log events, List.getElem?_map] at this
      exact Option.some.inj ((congrArg (Option.map Prod.snd) hp).symm.trans this)
    have hwindow : out.windowId = UInt64.ofNat p.1 := by
      have hid := congrArg (fun l => l[i]?) hids
      simp only [List.getElem?_map, hout, Option.map_some] at hid
      exact Option.some.inj (hid.trans (congrArg (Option.map fun p => UInt64.ofNat p.1) hp))
    rw [Option.some.inj hemit, decide_eq_true_iff, hwindow, ← hsnd]
    exact raised_iff_eventsUpTo hlen hids hp

/-- Two connections of one host, and one of another. -/
theorem hashmap_alerts_exact_scan :
    ∃ d outs, runAlgo { algo := "", threshold := 1 } "hashmap"
        [⟨7, 1, 22, 5⟩, ⟨8, 1, 22, 6⟩, ⟨7, 1, 23, 7⟩] = some (d, outs) ∧
      ∀ w x, eventsOf outs [⟨7, 1, 22, 5⟩, ⟨8, 1, 22, 6⟩, ⟨7, 1, 23, 7⟩] w x ≤ 1 →
        alertsOf d w x = [] := by
  obtain ⟨d, outs, hrun, -, hnil, -⟩ := hashmap_alerts_exact { algo := "", threshold := 1 }
    [⟨7, 1, 22, 5⟩, ⟨8, 1, 22, 6⟩, ⟨7, 1, 23, 7⟩] (by decide)
  exact ⟨d, outs, hrun, hnil⟩

/-! ## Beyond `2^64` events -/

/-- `2^64` connections of one host are more than a threshold of `2^64 - 1`, and
never alert: their counter wraps. -/
theorem not_hashmap_alerts_exact :
    ∃ d outs, runAlgo { algo := "", threshold := 18446744073709551615 } "hashmap"
        (List.replicate (2 ^ 64) ⟨2, 9, 80, 1⟩) = some (d, outs) ∧
      (18446744073709551615 : UInt64).toNat
        < eventsOf outs (List.replicate (2 ^ 64) ⟨2, 9, 80, 1⟩) 0 2 ∧
      d.alerts = [] := by
  have hn : (18446744073709551615 : UInt64).toNat < 2 ^ 64 := by decide
  generalize (2 : ℕ) ^ 64 = n at hn
  obtain ⟨d, outs, hrun, h, hids⟩ := follows_runAlgo
    (makeEstimator_hashmap { algo := "", threshold := 18446744073709551615 })
    .hashMapExact (List.replicate n ⟨2, 9, 80, 1⟩)
  refine ⟨d, outs, hrun, ?_, ?_⟩
  · have hlog : (windowsOf { algo := "", threshold := 18446744073709551615 }
        (List.replicate n ⟨2, 9, 80, 1⟩)).log = (List.replicate n ⟨2, 9, 80, 1⟩).map (Prod.mk 0) :=
      log_of_time_eq (t := 1) fun e he => by rw [List.eq_of_mem_replicate he]
    rw [(counts_eq hids (map_snd_log _) 0 2).2, hlog, List.map_replicate, List.countP_replicate,
      if_pos (by decide)]
    exact hn
  · rw [h.alerts_eq, List.filterMap_eq_nil_iff]
    intro i hi
    -- no count modulo `2^64` is over the largest threshold
    obtain ⟨p, -, hover⟩ := (mem_raised.mp hi).1
    rw [Estimator.estimateAfter_hashMapExact] at hover
    have hmod := Nat.mod_lt ((stream NetworkEvent.srcIp ((windowsOf
      { algo := "", threshold := 18446744073709551615 }
      (List.replicate n ⟨2, 9, 80, 1⟩)).log.take (i + 1)) p.1).count p.2) (show 0 < 2 ^ 64 by decide)
    have hmax : (18446744073709551615 : UInt64).toNat + 1 = 2 ^ 64 := by decide
    exact absurd (Nat.lt_of_lt_of_eq hmod hmax.symm) (Nat.not_lt.mpr hover)

end Portscan
